import HttpC.Core.Text

/-!
# The workload parser

`ztest/src/toml.zig`: `[[events]]` tables of `key = value` lines, a value a
quoted string or an integer. The search for the closing quote and the
unescaping are separate loops over the same bytes, as in the source.

A rendering (`Document`) is a list of tables with everything a writer may
choose: blank lines and comment lines anywhere, blanks around keys and values,
a comment after a value, CR before the newline. `parse_render` reads every
rendering back.
-/
namespace HttpC.L6.Toml
open HttpC.Text

/-- mirrors ztest/src/toml.zig:8-11 -/
inductive Value where
  | str (s : Bytes)
  | int (n : Int64)
  deriving DecidableEq, Repr

/-- `keys` and `vals`, filled together.
mirrors ztest/src/toml.zig:13-20 -/
structure Table where
  entries : List (Bytes × Value) := []
  deriving DecidableEq, Repr

namespace Table

/-- mirrors ztest/src/toml.zig:17-20 -/
def put (t : Table) (key : Bytes) (value : Value) : Table := ⟨t.entries ++ [(key, value)]⟩

/-- The first entry of a key.
mirrors ztest/src/toml.zig:22-27 -/
def get (t : Table) (key : Bytes) : Option Value :=
  (t.entries.find? (·.1 = key)).map Prod.snd

/-- mirrors ztest/src/toml.zig:29-35 -/
def getStr (t : Table) (key : Bytes) : Option Bytes :=
  match t.get key with
  | some (.str s) => some s
  | _ => none

/-- mirrors ztest/src/toml.zig:37-43 -/
def getInt (t : Table) (key : Bytes) : Option Int64 :=
  match t.get key with
  | some (.int n) => some n
  | _ => none

/-- mirrors ztest/src/toml.zig:47-49 -/
def getId (t : Table) : Option Int64 := t.getInt (ascii "id")

end Table

/-- mirrors ztest/src/toml.zig:61-67 -/
inductive ParseError where
  | KeyValueOutsideTable | MissingEquals | UnterminatedString | InvalidInteger | EmptyKey
  deriving DecidableEq, Repr

/-- The loop over `end`: the bytes from `end` on, `escaped`, `end`. `none` is
`end >= raw.len`.
mirrors ztest/src/toml.zig:74-79 -/
def closeQuote : Bytes → Bool → Nat → Option Nat
  | [], _, _ => none
  | c :: cs, escaped, end_ =>
    if c ≠ 34 ∨ escaped then closeQuote cs (c = 92 && !escaped) (end_ + 1) else some end_

/-- mirrors ztest/src/toml.zig:88-101 -/
def unescape : Bytes → Bytes
  | 92 :: c :: t =>
    (match c with
      | 34 => 34
      | 92 => 92
      | 110 => 10
      | 116 => 9
      | c => c) :: unescape t
  | c :: t => c :: unescape t
  | [] => []

/-- mirrors ztest/src/toml.zig:69-107 -/
def parseValue (raw : Bytes) : Except ParseError Value :=
  match raw with
  | [] => .error .InvalidInteger
  | 34 :: rest =>
    match closeQuote rest false 1 with
    | none => .error .UnterminatedString
    | some end_ =>
      let inner := (raw.take end_).drop 1
      if 92 ∈ inner then .ok (.str (unescape inner)) else .ok (.str inner)
  | raw =>
    match parseI64 raw with
    | none => .error .InvalidInteger
    | some n => .ok (.int n)

/-- `workload.events` and `current`.
mirrors ztest/src/toml.zig:114-118 -/
structure Parser where
  events : List Table := []
  current : Option Nat := none
  deriving DecidableEq, Repr

/-- The value text of a line: without an inline comment when it is bare.
mirrors ztest/src/toml.zig:138-143 -/
def valueText (raw : Bytes) : Bytes :=
  let val := trim (ascii " \t") raw
  if val.head? ≠ none ∧ val.head? ≠ some 34 then
    match val.idxOf? 35 with
    | some hash => trim (ascii " \t") (val.take hash)
    | none => val
  else val

/-- mirrors ztest/src/toml.zig:121-147 -/
def parseLine (p : Parser) (rawLine : Bytes) : Except ParseError Parser :=
  let line := trim (ascii " \t\r") rawLine
  if line = [] then .ok p
  else if line.head? = some 35 then .ok p
  else if line = ascii "[[events]]" then
    .ok ⟨p.events ++ [{}], some p.events.length⟩
  else
    match line.idxOf? 61 with
    | none => .error .MissingEquals
    | some eq =>
      let key := trim (ascii " \t") (line.take eq)
      if key = [] then .error .EmptyKey
      else
        match parseValue (valueText (line.drop (eq + 1))) with
        | .error e => .error e
        | .ok value =>
          match p.current with
          | none => .error .KeyValueOutsideTable
          | some idx => .ok { p with events := p.events.modify idx (·.put key value) }

/-- mirrors ztest/src/toml.zig:113-151 -/
def parse (text : Bytes) : Except ParseError (List Table) :=
  ((text.splitOn 10).foldlM parseLine {}).map Parser.events

/-! ## Renderings -/

/-- The escapes a writer uses. -/
def escapeByte (c : UInt8) : Bytes :=
  if c = 34 then [92, 34]
  else if c = 92 then [92, 92]
  else if c = 10 then [92, 110]
  else if c = 9 then [92, 116]
  else [c]

def escape (s : Bytes) : Bytes := s.flatMap escapeByte

/-- A value as it is written. -/
def Value.text : Value → Bytes
  | .str s => 34 :: (escape s ++ [34])
  | .int n => decimalInt n.toInt

/-- Spaces and tabs. -/
def Blank (s : Bytes) : Prop := ∀ x ∈ s, x ∈ ascii " \t"

/-- What may surround a line: spaces, tabs, the CR of a CR LF. -/
def Pad (s : Bytes) : Prop := ∀ x ∈ s, x ∈ ascii " \t\r"

/-- The keys a writer may use. -/
structure KeyOk (key : Bytes) : Prop where
  ne : key ≠ []
  noEquals : 61 ∉ key
  noNewline : 10 ∉ key
  head : ∀ x ∈ key.head?, x ∉ ascii " \t\r#"
  last : ∀ x ∈ key.getLast?, x ∉ ascii " \t\r"

/-- A line without content. -/
inductive Filler where
  | blank (pad : Bytes)
  | comment (pad text : Bytes)

def Filler.line : Filler → Bytes
  | .blank pad => pad
  | .comment pad text => pad ++ 35 :: text

def Filler.Ok : Filler → Prop
  | .blank pad => Pad pad
  | .comment pad text => Pad pad ∧ 10 ∉ text

/-- A `key = value` line, what is around its parts, and the lines before it. -/
structure PairText where
  gap : List Filler
  before : Bytes
  key : Bytes
  beforeEq : Bytes
  afterEq : Bytes
  value : Value
  afterValue : Bytes
  comment : Option Bytes
  after : Bytes

/-- What follows the value. -/
def PairText.tail (p : PairText) : Bytes :=
  match p.comment with
  | none => p.afterValue ++ p.after
  | some text => p.afterValue ++ 35 :: (text ++ p.after)

def PairText.line (p : PairText) : Bytes :=
  p.before ++ (p.key ++ (p.beforeEq ++ 61 :: (p.afterEq ++ (p.value.text ++ p.tail))))

structure PairText.Ok (p : PairText) : Prop where
  gap : ∀ f ∈ p.gap, f.Ok
  before : Pad p.before
  beforeEq : Blank p.beforeEq
  afterEq : Blank p.afterEq
  afterValue : Blank p.afterValue
  comment : ∀ text ∈ p.comment, 10 ∉ text
  after : Pad p.after

structure TableText where
  gap : List Filler
  before : Bytes
  after : Bytes
  pairs : List PairText

def TableText.header (t : TableText) : Bytes := t.before ++ (ascii "[[events]]" ++ t.after)

structure TableText.Ok (t : TableText) : Prop where
  gap : ∀ f ∈ t.gap, f.Ok
  before : Pad t.before
  after : Pad t.after
  pairs : ∀ p ∈ t.pairs, p.Ok

/-- A rendering of tables; `gap` is what stands after the last. -/
structure Document where
  tables : List TableText
  gap : List Filler

structure Document.Ok (d : Document) : Prop where
  tables : ∀ t ∈ d.tables, t.Ok
  gap : ∀ f ∈ d.gap, f.Ok

def PairText.lines (p : PairText) : List Bytes := p.gap.map Filler.line ++ [p.line]

def TableText.lines (t : TableText) : List Bytes :=
  t.gap.map Filler.line ++ t.header :: t.pairs.flatMap PairText.lines

def Document.lines (d : Document) : List Bytes :=
  d.tables.flatMap TableText.lines ++ d.gap.map Filler.line

def Document.text (d : Document) : Bytes := [10].intercalate d.lines

/-- The table a rendering is of. -/
def TableText.content (t : TableText) : Table := ⟨t.pairs.map fun p => (p.key, p.value)⟩

def Document.content (d : Document) : List Table := d.tables.map TableText.content

/-! ## Quoted strings -/

theorem closeQuote_escape (s t : Bytes) (k : Nat) :
    closeQuote (escape s ++ 34 :: t) false k = some (k + (escape s).length) := by
  induction s generalizing k with
  | nil => simp [escape, closeQuote]
  | cons c s ih =>
    have e : escape (c :: s) = escapeByte c ++ escape s := rfl
    rw [e, List.append_assoc, List.length_append]
    -- a pair flips `escaped` on and off again, another octet leaves it off
    have hpair : ∀ x : UInt8, closeQuote (92 :: x :: (escape s ++ 34 :: t)) false k =
        some (k + (2 + (escape s).length)) := by
      intro x
      simp only [closeQuote, Bool.not_false, Bool.and_true, decide_true, Bool.not_true,
        Bool.and_false, or_true, if_true]
      rw [if_pos (by decide), ih]
      congr 1
      omega
    unfold escapeByte
    split
    · exact hpair 34
    · split
      · exact hpair 92
      · split
        · exact hpair 110
        · split
          · exact hpair 116
          · rename_i h34 h92 _ _
            simp only [List.cons_append, List.nil_append, closeQuote, h34, h92, ne_eq,
              not_false_eq_true, true_or, if_true, decide_false, Bool.false_and, ih,
              List.length_singleton]
            congr 1
            omega

theorem unescape_cons {c : UInt8} (h : c ≠ 92) (t : Bytes) : unescape (c :: t) = c :: unescape t := by
  rw [unescape]
  intro d u hc _
  exact h hc

/-- Without a backslash there is nothing to do. -/
theorem unescape_eq_self {s : Bytes} (h : 92 ∉ s) : unescape s = s := by
  induction s with
  | nil => rfl
  | cons c s ih =>
    obtain ⟨hc, hs⟩ := not_or.mp (fun hm => h (List.mem_cons.mpr hm))
    rw [unescape_cons (fun e => hc e.symm), ih hs]

theorem unescape_escape (s : Bytes) : unescape (escape s) = s := by
  induction s with
  | nil => rfl
  | cons c s ih =>
    have e : escape (c :: s) = escapeByte c ++ escape s := rfl
    rw [e]
    unfold escapeByte
    split
    · rename_i h; subst h; simp [unescape, ih]
    · split
      · rename_i h; subst h; simp [unescape, ih]
      · split
        · rename_i h; subst h; simp [unescape, ih]
        · split
          · rename_i h; subst h; simp [unescape, ih]
          · rename_i h92 _ _
            rw [List.singleton_append, unescape_cons h92, ih]

/-! ## Values -/

theorem blank_pad (x : UInt8) (h : x ∈ ascii " \t") : x ∈ ascii " \t\r" :=
  List.mem_append_left (ascii "\r") h

theorem pad_plain (x : UInt8) (h : x ∈ ascii " \t\r") : x ∈ ascii " \t\r#\"\n" :=
  List.mem_append_left (ascii "#\"\n") h

theorem decimalInt_octets (z : Int) : ∀ x ∈ decimalInt z, x = 45 ∨ 48 ≤ x.toNat := by
  intro x hx
  unfold decimalInt at hx
  split at hx
  · rcases List.mem_cons.mp hx with hx | hx
    · exact .inl hx
    · exact .inr (decimal_digits hx).1
  · exact .inr (decimal_digits hx).1

theorem decimalInt_ne_nil (z : Int) : decimalInt z ≠ [] := by
  unfold decimalInt
  split
  · exact List.cons_ne_nil _ _
  · exact decimal_ne_nil _

/-- No octet of a printed number is a blank, a quote, a `#` or a newline. -/
theorem decimalInt_plain (z : Int) {x : UInt8} (hx : x ∈ decimalInt z) :
    x ∉ ascii " \t\r#\"\n" := by
  intro hm
  have e : ascii " \t\r#\"\n" = [32, 9, 13, 35, 34, 10] := by decide
  rw [e] at hm
  rcases decimalInt_octets z x hx with rfl | h
  · revert hm
    decide
  · simp only [List.mem_cons, List.not_mem_nil, or_false] at hm
    rcases hm with rfl | rfl | rfl | rfl | rfl | rfl <;> revert h <;> decide

theorem Value.text_ne_nil (v : Value) : v.text ≠ [] := by
  cases v with
  | str s => exact List.cons_ne_nil _ _
  | int n => exact decimalInt_ne_nil _

theorem Value.head_text (v : Value) : ∀ x ∈ v.text.head?, x ∉ ascii " \t\r" := by
  intro x hx hm
  cases v with
  | str s =>
    obtain rfl : 34 = x := Option.some.inj hx
    revert hm
    decide
  | int n =>
    exact decimalInt_plain _ (List.mem_of_mem_head? hx) (pad_plain x hm)

theorem Value.last_text (v : Value) : ∀ x ∈ v.text.getLast?, x ∉ ascii " \t\r" := by
  intro x hx hm
  cases v with
  | str s =>
    have e : (Value.str s).text = (34 :: escape s) ++ [34] := rfl
    have h34 : (Value.str s).text.getLast? = some 34 := by rw [e, List.getLast?_concat]
    obtain rfl : 34 = x := Option.some.inj (h34.symm.trans hx)
    revert hm
    decide
  | int n =>
    exact decimalInt_plain _ (List.mem_of_getLast? hx) (pad_plain x hm)

/-- What is left behind a value: nothing, or a comment. -/
def Tail (t : Bytes) : Prop := t = [] ∨ ∃ b c, Blank b ∧ t = b ++ 35 :: c

/-- Trimming leaves a comment a comment. -/
theorem Tail.rdropWhile {cut t : Bytes} (h : Tail t) (hcut : 35 ∉ cut) :
    Tail (t.rdropWhile cut.contains) := by
  rcases h with rfl | ⟨b, c, hb, rfl⟩
  · exact .inl (List.rdropWhile_nil _)
  · right
    refine ⟨b, c.rdropWhile cut.contains, hb, ?_⟩
    have e : b ++ 35 :: c = (b ++ [35]) ++ c := by simp
    rw [e, rdropWhile_append c (by simpa using hcut)]
    simp

theorem parseValue_str (s t : Bytes) : parseValue (34 :: (escape s ++ 34 :: t)) = .ok (.str s) := by
  have hinner : ((34 :: (escape s ++ 34 :: t)).take (1 + (escape s).length)).drop 1 = escape s := by
    rw [Nat.add_comm, List.take_succ_cons, List.drop_one, List.tail_cons, List.take_left]
  simp only [parseValue, closeQuote_escape, hinner, unescape_escape]
  split
  · rfl
  · rename_i h
    rw [← unescape_eq_self h, unescape_escape]

theorem parseValue_int (n : Int64) : parseValue (decimalInt n.toInt) = .ok (.int n) := by
  have hne := decimalInt_ne_nil n.toInt
  have h34 : ∀ t, decimalInt n.toInt ≠ 34 :: t := by
    intro t h
    have hm : (34 : UInt8) ∈ decimalInt n.toInt := by
      rw [h]
      exact List.mem_cons_self
    exact decimalInt_plain _ hm (by decide)
  unfold parseValue
  split
  · contradiction
  · rename_i rest h
    exact absurd h (h34 rest)
  · rw [parseI64_decimalInt]

/-- The value of a line, whatever is left behind it. -/
theorem parseValue_valueText (v : Value) {b t : Bytes} (hb : Blank b) (ht : Tail t) :
    parseValue (valueText (b ++ (v.text ++ t))) = .ok v := by
  have hhead : ∀ x ∈ v.text.head?, x ∉ ascii " \t" :=
    fun x hx hm => v.head_text x hx (blank_pad x hm)
  have hlast : ∀ x ∈ v.text.getLast?, x ∉ ascii " \t" :=
    fun x hx hm => v.last_text x hx (blank_pad x hm)
  have htrim := trim_around t hb v.text_ne_nil hhead hlast
  have ht' : Tail (t.rdropWhile (ascii " \t").contains) := ht.rdropWhile (by decide)
  generalize t.rdropWhile (ascii " \t").contains = t' at htrim ht'
  cases v with
  | str s =>
    have hval : valueText (b ++ ((Value.str s).text ++ t)) = (Value.str s).text ++ t' := by
      simp only [valueText, htrim]
      rw [if_neg (by simp [Value.text])]
    rw [hval]
    simpa [Value.text] using parseValue_str s t'
  | int n =>
    have hhash : (35 : UInt8) ∉ decimalInt n.toInt := fun hm => decimalInt_plain _ hm (by decide)
    have hbare : (decimalInt n.toInt ++ t').head? ≠ none ∧
        (decimalInt n.toInt ++ t').head? ≠ some 34 := by
      obtain ⟨x, ds, hds⟩ := List.exists_cons_of_ne_nil (decimalInt_ne_nil n.toInt)
      rw [hds, List.cons_append, List.head?_cons]
      refine ⟨by simp, ?_⟩
      intro h
      obtain rfl := Option.some.inj h
      exact decimalInt_plain n.toInt (by rw [hds]; exact List.mem_cons_self) (by decide)
    simp only [Value.text] at htrim hhead hlast ⊢
    have hval : valueText (b ++ (decimalInt n.toInt ++ t)) = decimalInt n.toInt := by
      simp only [valueText, htrim]
      rw [if_pos hbare]
      rcases ht' with rfl | ⟨b', c, hb', rfl⟩
      · rw [List.append_nil, List.idxOf?_eq_none_iff.mpr hhash]
      · have hno : (35 : UInt8) ∉ decimalInt n.toInt ++ b' := by
          intro hm
          rcases List.mem_append.mp hm with hm | hm
          · exact hhash hm
          · have := hb' _ hm
            revert this
            decide
        rw [← List.append_assoc, idxOf_first c hno]
        simp only [List.take_left]
        have hcut := trim_around b' (List.forall_mem_nil _) (decimalInt_ne_nil n.toInt) hhead hlast
        rw [rdropWhile_blank hb', List.append_nil] at hcut
        exact hcut
    rw [hval]
    exact parseValue_int n

/-! ## Lines -/

theorem parseLine_filler (p : Parser) {f : Filler} (h : f.Ok) : parseLine p f.line = .ok p := by
  cases f with
  | blank pad =>
    have htrim : trim (ascii " \t\r") (Filler.line (.blank pad)) = [] := trim_blank h
    simp only [parseLine, htrim, if_true]
  | comment pad text =>
    have htrim := trim_around text h.1 (List.cons_ne_nil 35 [])
      (by simp only [List.head?_cons, Option.mem_def, Option.some.injEq]; rintro x rfl; decide)
      (by simp only [List.getLast?_singleton, Option.mem_def, Option.some.injEq]
          rintro x rfl; decide)
    have hline : trim (ascii " \t\r") (Filler.line (.comment pad text)) = _ := htrim
    simp only [parseLine, hline, List.cons_append, List.head?_cons, reduceCtorEq, if_false, if_true]

theorem parseLine_header (p : Parser) {t : TableText} (h : t.Ok) :
    parseLine p t.header = .ok ⟨p.events ++ [⟨[]⟩], some p.events.length⟩ := by
  have e : ascii "[[events]]" = [91, 91, 101, 118, 101, 110, 116, 115, 93, 93] := by decide
  have htrim := trim_around t.after h.before (show ascii "[[events]]" ≠ [] by decide)
    (by rw [e]; simp only [List.head?_cons, Option.mem_def, Option.some.injEq]; rintro x rfl; decide)
    (by rw [e]; simp only [List.getLast?_cons_cons, List.getLast?_singleton, Option.mem_def,
          Option.some.injEq]; rintro x rfl; decide)
  rw [rdropWhile_blank h.after, List.append_nil] at htrim
  have hline : trim (ascii " \t\r") t.header = ascii "[[events]]" := htrim
  have hne : ascii "[[events]]" ≠ [] := by decide
  have hhash : (ascii "[[events]]").head? ≠ some 35 := by decide
  simp only [parseLine, hline, if_neg hne, if_neg hhash, if_true]

/-- The rest of a line keeps its comment. -/
theorem PairText.tail_trimmed {q : PairText} (h : q.Ok) :
    Tail (q.tail.rdropWhile (ascii " \t\r").contains) := by
  unfold PairText.tail
  cases q.comment with
  | none =>
    left
    apply rdropWhile_blank
    intro x hx
    rcases List.mem_append.mp hx with hx | hx
    · exact blank_pad x (h.afterValue x hx)
    · exact h.after x hx
  | some text =>
    have ht : Tail (q.afterValue ++ 35 :: (text ++ q.after)) := .inr ⟨_, _, h.afterValue, rfl⟩
    exact ht.rdropWhile (by decide)

/-- What trimming leaves of a `key = value` line. -/
theorem PairText.trim_line {q : PairText} (h : q.Ok) (hk : KeyOk q.key) :
    ∃ t, Tail t ∧ trim (ascii " \t\r") q.line =
      (q.key ++ q.beforeEq) ++ 61 :: (q.afterEq ++ (q.value.text ++ t)) := by
  refine ⟨_, q.tail_trimmed h, ?_⟩
  obtain ⟨k, ks, hks⟩ := List.exists_cons_of_ne_nil hk.ne
  have hhead : ∀ x ∈ (q.key ++ (q.beforeEq ++ [61])).head?, x ∉ ascii " \t\r" := by
    intro x hx hm
    rw [hks] at hx
    apply hk.head x
    · rw [hks]
      exact hx
    · exact List.mem_append_left (ascii "#") hm
  have hlast : ∀ x ∈ (q.key ++ (q.beforeEq ++ [61])).getLast?, x ∉ ascii " \t\r" := by
    intro x hx
    rw [← List.append_assoc, List.getLast?_concat] at hx
    obtain rfl := Option.some.inj hx
    decide
  have hne : q.key ++ (q.beforeEq ++ [61]) ≠ [] := by simp
  have htrim := trim_around (q.afterEq ++ (q.value.text ++ q.tail)) h.before hne hhead hlast
  have hvne : q.afterEq ++ q.value.text ≠ [] := by simp [q.value.text_ne_nil]
  have hvlast : ∀ x ∈ (q.afterEq ++ q.value.text).getLast?, x ∉ ascii " \t\r" := by
    intro x hx
    rw [List.getLast?_append_of_ne_nil _ q.value.text_ne_nil] at hx
    exact q.value.last_text x hx
  have hright := rdropWhile_append q.tail hvlast
  rw [List.append_assoc] at hright
  rw [hright] at htrim
  simpa [PairText.line] using htrim

theorem modify_last (events : List Table) (t : Table) (f : Table → Table) :
    (events ++ [t]).modify events.length f = events ++ [f t] := by
  induction events with
  | nil => rfl
  | cons e events ih =>
    rw [List.cons_append, List.length_cons, List.modify_succ_cons, ih]
    rfl

theorem parseLine_pair {q : PairText} (h : q.Ok) (hk : KeyOk q.key) (events : List Table)
    (t : Table) :
    parseLine ⟨events ++ [t], some events.length⟩ q.line =
      .ok ⟨events ++ [t.put q.key q.value], some events.length⟩ := by
  obtain ⟨tail, htail, hline⟩ := q.trim_line h hk
  generalize hrest : q.afterEq ++ (q.value.text ++ tail) = rest at hline
  have hvalue : parseValue (valueText rest) = .ok q.value := by
    rw [← hrest]
    exact parseValue_valueText q.value h.afterEq htail
  have hnoeq : (61 : UInt8) ∉ q.key ++ q.beforeEq := by
    intro hm
    rcases List.mem_append.mp hm with hm | hm
    · exact hk.noEquals hm
    · have := h.beforeEq _ hm
      revert this
      decide
  have hkey : trim (ascii " \t") (q.key ++ q.beforeEq) = q.key := by
    have hhead : ∀ x ∈ q.key.head?, x ∉ ascii " \t" := fun x hx hm =>
      hk.head x hx (List.mem_append_left (ascii "\r#") hm)
    have hlast : ∀ x ∈ q.key.getLast?, x ∉ ascii " \t" := fun x hx hm =>
      hk.last x hx (blank_pad x hm)
    have := trim_around q.beforeEq (List.forall_mem_nil _) hk.ne hhead hlast
    rwa [rdropWhile_blank h.beforeEq, List.append_nil] at this
  -- the line is not empty, no comment, and not `[[events]]`
  have hne : (q.key ++ q.beforeEq) ++ 61 :: rest ≠ [] := by simp
  have hhash : ((q.key ++ q.beforeEq) ++ 61 :: rest).head? ≠ some 35 := by
    obtain ⟨k, ks, hks⟩ := List.exists_cons_of_ne_nil hk.ne
    rw [hks]
    intro hh
    obtain rfl : k = 35 := Option.some.inj hh
    exact hk.head 35 (by rw [hks]; rfl) (by decide)
  have hevents : (q.key ++ q.beforeEq) ++ 61 :: rest ≠ ascii "[[events]]" := by
    intro he
    have hm : (61 : UInt8) ∈ ascii "[[events]]" := by
      rw [← he]
      simp
    revert hm
    decide
  simp only [parseLine, hline, if_neg hne, if_neg hhash, if_neg hevents, idxOf_first rest hnoeq,
    List.take_left, hkey, if_neg hk.ne, List.drop_append, Nat.add_sub_cancel_left,
    List.drop_eq_nil_of_le (Nat.le_succ (q.key ++ q.beforeEq).length), List.nil_append,
    List.drop_one, List.tail_cons, hvalue, modify_last]

/-! ## Documents -/

theorem foldlM_gap (p : Parser) {gap : List Filler} (h : ∀ f ∈ gap, f.Ok) :
    (gap.map Filler.line).foldlM parseLine p = .ok p := by
  induction gap with
  | nil => rfl
  | cons f gap ih =>
    obtain ⟨hf, hgap⟩ := List.forall_mem_cons.mp h
    rw [List.map_cons, List.foldlM_cons, parseLine_filler p hf]
    exact ih hgap

theorem foldlM_pairs {pairs : List PairText} (h : ∀ q ∈ pairs, q.Ok)
    (hk : ∀ q ∈ pairs, KeyOk q.key) (events : List Table) (t : Table) :
    (pairs.flatMap PairText.lines).foldlM parseLine ⟨events ++ [t], some events.length⟩ =
      .ok ⟨events ++ [⟨t.entries ++ pairs.map fun q => (q.key, q.value)⟩], some events.length⟩ := by
  induction pairs generalizing t with
  | nil => simp [pure, Except.pure]
  | cons q pairs ih =>
    obtain ⟨hq, h⟩ := List.forall_mem_cons.mp h
    obtain ⟨hkq, hk⟩ := List.forall_mem_cons.mp hk
    rw [List.flatMap_cons, PairText.lines, List.append_assoc, List.foldlM_append,
      foldlM_gap _ hq.gap]
    simp only [bind, Except.bind, List.singleton_append, List.foldlM_cons,
      parseLine_pair hq hkq]
    rw [ih h hk]
    simp [Table.put]

theorem foldlM_tables {tables : List TableText} (h : ∀ t ∈ tables, t.Ok)
    (hk : ∀ t ∈ tables, ∀ q ∈ t.pairs, KeyOk q.key) (p : Parser) :
    ∃ p', (tables.flatMap TableText.lines).foldlM parseLine p = .ok p' ∧
      p'.events = p.events ++ tables.map TableText.content := by
  induction tables generalizing p with
  | nil => exact ⟨p, rfl, by simp⟩
  | cons t tables ih =>
    obtain ⟨ht, h⟩ := List.forall_mem_cons.mp h
    obtain ⟨hkt, hk⟩ := List.forall_mem_cons.mp hk
    obtain ⟨p', hp', hev⟩ := ih h hk ⟨p.events ++ [t.content], some p.events.length⟩
    refine ⟨p', ?_, ?_⟩
    · rw [List.flatMap_cons, TableText.lines, List.append_assoc, List.foldlM_append,
        foldlM_gap _ ht.gap]
      simp only [bind, Except.bind, List.cons_append, List.foldlM_cons, parseLine_header p ht,
        List.foldlM_append]
      rw [foldlM_pairs ht.pairs hkt]
      simpa [TableText.content] using hp'
    · rw [hev]
      simp

/-! ### No line of a rendering holds a newline -/

theorem pad_no_newline {s : Bytes} (h : Pad s) : (10 : UInt8) ∉ s := by
  intro hm
  have := h _ hm
  revert this
  decide

theorem blank_no_newline {s : Bytes} (h : Blank s) : (10 : UInt8) ∉ s :=
  pad_no_newline fun x hx => blank_pad x (h x hx)

theorem escape_no_newline (s : Bytes) : (10 : UInt8) ∉ escape s := by
  intro hm
  obtain ⟨c, -, hc⟩ := List.mem_flatMap.mp hm
  unfold escapeByte at hc
  split at hc
  · revert hc; decide
  · split at hc
    · revert hc; decide
    · split at hc
      · revert hc; decide
      · split at hc
        · revert hc; decide
        · rename_i h10 _
          exact h10 (List.mem_singleton.mp hc).symm

theorem Value.text_no_newline (v : Value) : (10 : UInt8) ∉ v.text := by
  cases v with
  | str s => simp [Value.text, escape_no_newline]
  | int n => exact fun hm => decimalInt_plain _ hm (by decide)

theorem Filler.Ok.no_newline {f : Filler} (h : f.Ok) : (10 : UInt8) ∉ f.line := by
  cases f with
  | blank pad => exact pad_no_newline h
  | comment pad text => simp [Filler.line, pad_no_newline h.1, h.2]

theorem PairText.Ok.no_newline {q : PairText} (h : q.Ok) (hk : KeyOk q.key) :
    (10 : UInt8) ∉ q.line := by
  have htail : (10 : UInt8) ∉ q.tail := by
    unfold PairText.tail
    cases hc : q.comment with
    | none => simp [blank_no_newline h.afterValue, pad_no_newline h.after]
    | some text =>
      simp [blank_no_newline h.afterValue, pad_no_newline h.after, h.comment text hc]
  simp [PairText.line, pad_no_newline h.before, hk.noNewline, blank_no_newline h.beforeEq,
    blank_no_newline h.afterEq, q.value.text_no_newline, htail]

theorem Document.no_newline {d : Document} (h : d.Ok)
    (hk : ∀ t ∈ d.tables, ∀ q ∈ t.pairs, KeyOk q.key) : ∀ l ∈ d.lines, (10 : UInt8) ∉ l := by
  have hgap : ∀ gap : List Filler, (∀ f ∈ gap, f.Ok) → ∀ l ∈ gap.map Filler.line, (10 : UInt8) ∉ l := by
    intro gap hgap l hl
    obtain ⟨f, hf, rfl⟩ := List.mem_map.mp hl
    exact (hgap f hf).no_newline
  intro l hl
  rcases List.mem_append.mp hl with hl | hl
  · obtain ⟨t, ht, hl⟩ := List.mem_flatMap.mp hl
    have hok := h.tables t ht
    rcases List.mem_append.mp hl with hl | hl
    · exact hgap _ hok.gap l hl
    · rcases List.mem_cons.mp hl with rfl | hl
      · simp [TableText.header, pad_no_newline hok.before, pad_no_newline hok.after,
          show (10 : UInt8) ∉ ascii "[[events]]" by decide]
      · obtain ⟨q, hq, hl⟩ := List.mem_flatMap.mp hl
        rcases List.mem_append.mp hl with hl | hl
        · exact hgap _ (hok.pairs q hq).gap l hl
        · rw [List.mem_singleton.mp hl]
          exact (hok.pairs q hq).no_newline (hk t ht q hq)
  · exact hgap _ h.gap l hl

/-- **The parser reads back what is written.** Every rendering of tables whose
keys are well formed, values any strings and integers, parses to exactly
these tables. -/
theorem parse_render {tables : List Table} (hkeys : ∀ t ∈ tables, ∀ e ∈ t.entries, KeyOk e.1)
    {d : Document} (hd : d.Ok) (hcontent : d.content = tables) : parse d.text = .ok tables := by
  have hk : ∀ t ∈ d.tables, ∀ q ∈ t.pairs, KeyOk q.key := by
    intro t ht q hq
    have htab : t.content ∈ tables := by
      rw [← hcontent]
      exact List.mem_map_of_mem ht
    exact hkeys _ htab (q.key, q.value) (List.mem_map_of_mem hq)
  obtain ⟨p, hp, hev⟩ := foldlM_tables hd.tables hk {}
  have hfold : d.lines.foldlM parseLine {} = .ok p := by
    rw [Document.lines, List.foldlM_append, hp]
    exact foldlM_gap p hd.gap
  have hres : p.events = tables := by
    rw [hev, ← hcontent]
    rfl
  by_cases hne : d.lines = []
  · -- an empty text is one empty line
    rw [hne] at hfold
    cases hfold
    rw [Document.text, hne]
    subst hres
    rfl
  · rw [parse, Document.text, List.splitOn_intercalate 10 (d.no_newline hd hk) hne, hfold, ← hres]
    rfl

/-- A string that ends in a backslash and holds `"`, `=` and `#`, comments
with quotes, and CR LF. -/
def awkwardUri : PairText where
  gap := [.comment [9] (ascii " [[events]]"), .blank [13]]
  before := [32]
  key := ascii "uri"
  beforeEq := [32]
  afterEq := [9]
  value := .str (ascii "a\"=#\\")
  afterValue := []
  comment := some (ascii " \"x\" = 1")
  after := [13]

def awkwardId : PairText := ⟨[], [], ascii "id", [], [], .int (-1), [32], some (ascii "#"), [13]⟩

def awkward : Document := ⟨[⟨[], [], [32, 13], [awkwardUri, awkwardId]⟩], [.blank []]⟩

theorem awkward_ok : awkward.Ok := by
  have hu : awkwardUri.Ok := by
    refine ⟨?_, ?_, ?_, ?_, ?_, ?_, ?_⟩ <;> simp [awkwardUri, Filler.Ok, Pad, Blank, ascii]
  have hi : awkwardId.Ok := by
    refine ⟨?_, ?_, ?_, ?_, ?_, ?_, ?_⟩ <;> simp [awkwardId, Pad, Blank, ascii]
  refine ⟨?_, ?_⟩
  · intro t ht
    obtain rfl := List.mem_singleton.mp ht
    refine ⟨by simp, by simp [Pad], by simp [Pad, ascii], ?_⟩
    simp [hu, hi]
  · simp [awkward, Filler.Ok, Pad]

theorem awkward_keys : ∀ t ∈ awkward.content, ∀ e ∈ t.entries, KeyOk e.1 := by
  have hu : KeyOk (ascii "uri") := by
    refine ⟨?_, ?_, ?_, ?_, ?_⟩ <;> simp [ascii]
  have hi : KeyOk (ascii "id") := by
    refine ⟨?_, ?_, ?_, ?_, ?_⟩ <;> simp [ascii]
  intro t ht e he
  obtain rfl := List.mem_singleton.mp ht
  rcases List.mem_cons.mp he with rfl | he
  · exact hu
  · obtain rfl := List.mem_singleton.mp he
    exact hi

theorem parse_render_awkward :
    parse awkward.text =
      .ok [⟨[(ascii "uri", .str (ascii "a\"=#\\")), (ascii "id", .int (-1))]⟩] :=
  parse_render awkward_keys awkward_ok rfl

end HttpC.L6.Toml
