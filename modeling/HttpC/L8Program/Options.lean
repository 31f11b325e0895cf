import HttpC.Core.Getopt
import HttpC.L2Parse.Fields

/-!
# The command line: `opt_parse`

src/opt.c. `opt_parse` fills in the number of workers, the log file and the
port, or prints the usage and fails. `strtol` is the C library's, with a 64-bit
`long`: blanks, a sign, digits, saturation with `ERANGE`; the text behind the
number is what `end` points to.

`opt_parse_accepts` says which argument vectors are accepted, and with which
result: the lines one can compose from options with their arguments (attached or
not), operands in between, and `--`; the last `-t` and the last `-l` count,
every `-t` must be a number in range, the first operand is the port and the
operands behind it are ignored. It holds for a `getopt` that permutes and for
one that does not.
-/
namespace HttpC.L8
open HttpC.L2 HttpC.Getopt

def INT_MAX : Int := 2 ^ 31 - 1

/-- mirrors lib/opt.h:8,13 -/
def OPTIONS : Chars := optstring (ascii "t:l:")
def DEFAULT_THREAD_COUNT : Int := 3

/-- mirrors lib/opt.h:16-20 -/
structure Opt where
  nThreads : Int
  logPath : Option Bytes
  port : Int
  deriving DecidableEq, Repr

/-- `strtol(s, &end, 10)`: the value, whether `errno` is `ERANGE`, and `end`. -/
def strtol (s : Bytes) : Int × Bool × Bytes :=
  let v := s.dropWhile isSpace
  let neg := v.head? == some 45
  let v := if neg || v.head? == some 43 then v.drop 1 else v
  let ds := v.takeWhile isDigit
  let n : Int := valueOf ds
  -- no digits: nothing was read
  if ds = [] then (0, false, s)
  else if neg then
    if 2 ^ 63 < n then (-2 ^ 63, true, v.dropWhile isDigit) else (-n, false, v.dropWhile isDigit)
  else if 2 ^ 63 ≤ n then (2 ^ 63 - 1, true, v.dropWhile isDigit)
  else (n, false, v.dropWhile isDigit)

/-- mirrors src/opt.c:22-31 -/
def parsePositive (s : Bytes) : Int :=
  if s = [] then -1
  else
    let r := strtol s
    if r.2.1 = true ∨ r.2.2 ≠ [] ∨ r.1 ≤ 0 ∨ INT_MAX < r.1 then -1 else r.1

/-- The `switch` of src/opt.c:41-57. -/
def optCase (opts : Opt) : UInt8 × Option Bytes → Option Opt
  | (116, some optarg) =>
    let n := parsePositive optarg
    if n < 0 then none else some { opts with nThreads := n }
  | (108, some optarg) => some { opts with logPath := some optarg }
  | _ => none

/-- mirrors src/opt.c:33-72; `none` is -1, with the usage on `stderr` -/
def optParse (permute : Bool) (argv : List Bytes) : Option Opt :=
  match run OPTIONS permute optCase (argv.drop 1) ⟨DEFAULT_THREAD_COUNT, none, 0⟩ with
  | some (opts, w :: _) =>
    let port := parsePositive w
    if port < 0 ∨ 65535 < port then none else some { opts with port }
  | _ => none

/-! ## Numbers -/

/-- Blanks, perhaps a plus, digits, and a value that is positive and fits in an
`int`. -/
def Positive (s : Bytes) (n : Nat) : Prop :=
  ∃ blanks sign ds, s = blanks ++ (sign ++ ds) ∧ (∀ c ∈ blanks, isSpace c = true) ∧
    (sign = [] ∨ sign = [43]) ∧ ds ≠ [] ∧ (∀ c ∈ ds, isDigit c = true) ∧ valueOf ds = n ∧
    1 ≤ n ∧ (n : Int) ≤ INT_MAX

theorem strtol_number {blanks sign ds : Bytes} (hb : ∀ c ∈ blanks, isSpace c = true)
    (hs : sign = [] ∨ sign = [43]) (hne : ds ≠ []) (hd : ∀ c ∈ ds, isDigit c = true)
    (hlt : (valueOf ds : Int) < 2 ^ 63) :
    strtol (blanks ++ (sign ++ ds)) = (↑(valueOf ds), false, []) := by
  have hdrop : (blanks ++ (sign ++ ds)).dropWhile isSpace = sign ++ ds := by
    rw [List.dropWhile_append_of_pos hb]
    rcases hs with rfl | rfl
    · obtain ⟨d, ds, rfl⟩ := List.exists_cons_of_ne_nil hne
      simp [isDigit_not_space (hd d List.mem_cons_self)]
    · rfl
  have hhead : ((sign ++ ds).head? == some 45) = false ∧
      (if (sign ++ ds).head? == some 43 then (sign ++ ds).drop 1 else sign ++ ds) = ds := by
    rcases hs with rfl | rfl
    · obtain ⟨d, ds, rfl⟩ := List.exists_cons_of_ne_nil hne
      have h45 : d ≠ 45 := by rintro rfl; exact absurd (hd 45 List.mem_cons_self) (by decide)
      have h43 : d ≠ 43 := by rintro rfl; exact absurd (hd 43 List.mem_cons_self) (by decide)
      simp [h45, h43]
    · exact ⟨rfl, rfl⟩
  have htake : ds.takeWhile isDigit = ds := List.takeWhile_eq_self_iff.mpr hd
  have hrest : ds.dropWhile isDigit = [] := List.dropWhile_eq_nil_iff.mpr hd
  simp only [strtol, hdrop, hhead.1, Bool.false_or, hhead.2, htake, hrest, if_neg hne,
    Bool.false_eq_true, if_false]
  rw [if_neg (by omega)]

/-- What `strtol` says of a string it reads to the end, with a positive value
in range. -/
theorem strtol_positive {s : Bytes} {n : Int} (h : strtol s = (n, false, [])) (hn : 0 < n) :
    ∃ blanks sign ds, s = blanks ++ (sign ++ ds) ∧ (∀ c ∈ blanks, isSpace c = true) ∧
      (sign = [] ∨ sign = [43]) ∧ ds ≠ [] ∧ (∀ c ∈ ds, isDigit c = true) ∧ (valueOf ds : Int) = n := by
  have hsplit := List.takeWhile_append_dropWhile (p := isSpace) (l := s)
  have hblank : ∀ c ∈ s.takeWhile isSpace, isSpace c = true := fun c hc =>
    List.all_eq_true.mp (List.all_takeWhile (p := isSpace) (l := s)) c hc
  unfold strtol at h
  generalize s.dropWhile isSpace = v at h hsplit
  cases hneg : (v.head? == some 45) with
  | true =>
    -- a negative number is not positive
    simp only [hneg, Bool.true_or, if_true] at h
    split at h
    · simp only [Prod.mk.injEq] at h; omega
    · split at h <;> simp only [Prod.mk.injEq] at h <;> omega
  | false =>
    simp only [hneg, Bool.false_or, Bool.false_eq_true, if_false] at h
    generalize hu : (if (v.head? == some 43) = true then v.drop 1 else v) = u at h
    split at h
    · simp only [Prod.mk.injEq] at h; omega
    · rename_i hds
      split at h
      · simp at h
      · simp only [Prod.mk.injEq, true_and] at h
        obtain ⟨hv, hrest⟩ := h
        have hend := List.takeWhile_append_dropWhile (p := isDigit) (l := u)
        rw [hrest, List.append_nil] at hend
        refine ⟨s.takeWhile isSpace, if v.head? == some 43 then [43] else [], u.takeWhile isDigit, ?_,
          hblank, ?_, hds, fun c hc => List.all_eq_true.mp List.all_takeWhile c hc, hv⟩
        · have hsign : (if v.head? == some 43 then [43] else []) ++ u = v := by
            rw [← hu]
            split
            · rename_i hplus
              cases v with
              | nil => cases hplus
              | cons c v => simp at hplus; simp [hplus]
            · rfl
          rw [hend, hsign, hsplit]
        · split <;> simp

/-- **`parse_positive` accepts exactly the positive numbers that fit.** -/
theorem parsePositive_iff (s : Bytes) (n : Nat) : parsePositive s = n ↔ Positive s n := by
  unfold parsePositive
  constructor
  · intro h
    split at h
    · omega
    · rename_i hs
      simp only at h
      split at h
      · omega
      · rename_i hcond
        simp only [not_or, Bool.not_eq_true, ne_eq, not_not] at hcond
        obtain ⟨he, hr, hpos, hmax⟩ := hcond
        have hpair : strtol s = ((strtol s).1, false, []) := Prod.ext rfl (Prod.ext he hr)
        obtain ⟨blanks, sign, ds, h1, h2, h3, h4, h5, h6⟩ := strtol_positive hpair (by omega)
        exact ⟨blanks, sign, ds, h1, h2, h3, h4, h5, by omega, by omega, by omega⟩
  · rintro ⟨blanks, sign, ds, rfl, hb, hsg, hne, hd, hv, hn, hmax⟩
    have hlt : (valueOf ds : Int) < 2 ^ 63 := by
      rw [hv]; simp only [INT_MAX] at hmax; omega
    rw [if_neg (by simp [hne]), strtol_number hb hsg hne hd hlt]
    rw [if_neg]
    · exact congrArg Nat.cast hv
    · simp only [hv]
      rintro (h | h | h | h)
      · cases h
      · exact h rfl
      · omega
      · omega

theorem parsePositive_neg (s : Bytes) (h : ∀ n, ¬ Positive s n) : parsePositive s = -1 := by
  by_contra hne
  have hnn : 0 ≤ parsePositive s := by
    unfold parsePositive at hne ⊢
    split
    · rename_i hs; rw [if_pos hs] at hne; exact absurd rfl hne
    · rename_i hs
      rw [if_neg hs] at hne
      simp only at hne ⊢
      split
      · rename_i hc; rw [if_pos hc] at hne; exact absurd rfl hne
      · omega
  obtain ⟨n, hn⟩ := Int.eq_ofNat_of_zero_le hnn
  exact h n ((parsePositive_iff s n).mp hn)

/-! ## Options -/

theorem OPTIONS_eq (c : UInt8) :
    OPTIONS c = if c = 116 then some true else if c = 108 then some true else none := rfl

/-- The arguments given for option `c`, in order. -/
def values (c : UInt8) (os : List (UInt8 × Option Bytes)) : List Bytes :=
  os.filterMap fun o => if o.1 = c then o.2 else none

/-- The options of an acceptable line are `t` and `l`, with their arguments. -/
theorem options_known {permute : Bool} {l : Line} (hl : l.Ok OPTIONS permute)
    {o : UInt8 × Option Bytes} (ho : o ∈ l.options) :
    ∃ v, o = (116, some v) ∨ o = (108, some v) := by
  have hflag : ∀ {cs : Bytes}, (∀ c ∈ cs, OPTIONS c = some false) → cs = [] := by
    intro cs hcs
    cases cs with
    | nil => rfl
    | cons c cs =>
      have hc := hcs c List.mem_cons_self
      rw [OPTIONS_eq] at hc
      split at hc
      · cases hc
      · split at hc <;> cases hc
  have hchar : ∀ {c : UInt8}, OPTIONS c = some true → c = 116 ∨ c = 108 := by
    intro c hc
    rw [OPTIONS_eq] at hc
    split at hc
    · rename_i h; exact .inl h
    · split at hc
      · rename_i h; exact .inr h
      · cases hc
  obtain ⟨w, hw, how⟩ := List.mem_flatMap.mp ho
  have hok := hl.words w hw
  cases w with
  | operand w => cases how
  | flags cs => exact absurd (hflag hok.2) hok.1
  | attached cs c v | separate cs c v =>
    rw [Word.options, hflag hok.1] at how
    rw [List.mem_singleton.mp how]
    rcases hchar (by first | exact hok.2.1 | exact hok.2) with rfl | rfl
    · exact ⟨v, .inl rfl⟩
    · exact ⟨v, .inr rfl⟩

/-- The last one counts. -/
theorem foldlM_optCase (os : List (UInt8 × Option Bytes))
    (hos : ∀ o ∈ os, ∃ v, o = (116, some v) ∨ o = (108, some v)) (a b : Opt) :
    os.foldlM optCase a = some b ↔ (∀ v ∈ values 116 os, ∃ n, Positive v n) ∧
      b.nThreads = ((values 116 os).getLast?.map parsePositive).getD a.nThreads ∧
      b.logPath = (values 108 os).getLast?.or a.logPath ∧ b.port = a.port := by
  induction os generalizing a with
  | nil =>
    cases a
    cases b
    simp [values, List.foldlM_nil, eq_comm]
  | cons o os ih =>
    obtain ⟨⟨v, ho⟩, hrest⟩ := List.forall_mem_cons.mp hos
    rcases ho with rfl | rfl
    · have hval : values 116 ((116, some v) :: os) = v :: values 116 os := rfl
      have hval' : values 108 ((116, some v) :: os) = values 108 os := rfl
      rw [hval, hval', List.foldlM_cons, List.forall_mem_cons]
      by_cases hv : ∃ n, Positive v n
      · obtain ⟨n, hn⟩ := hv
        have hp := (parsePositive_iff v n).mpr hn
        have hcase : optCase a (116, some v) = some { a with nThreads := n } := by
          simp only [optCase, hp]
          rw [if_neg (by omega)]
        rw [hcase]
        refine (ih hrest { a with nThreads := n }).trans ?_
        rw [and_iff_right (a := ∃ n, Positive v n) ⟨n, hn⟩]
        cases hvs : (values 116 os).getLast? with
        | none => simp [List.getLast?_cons, hvs, hp]
        | some u => simp [List.getLast?_cons, hvs]
      · have hcase : optCase a (116, some v) = none := by
          simp only [optCase, parsePositive_neg v fun n hn => hv ⟨n, hn⟩]
          rfl
        rw [hcase]
        exact ⟨fun h => (by cases h), fun h => absurd h.1.1 hv⟩
    · have hval : values 116 ((108, some v) :: os) = values 116 os := rfl
      have hval' : values 108 ((108, some v) :: os) = v :: values 108 os := rfl
      rw [hval, hval', List.foldlM_cons]
      refine (ih hrest { a with logPath := some v }).trans ?_
      cases hvs : (values 108 os).getLast? with
      | none => simp [List.getLast?_cons, hvs]
      | some u => simp [List.getLast?_cons, hvs]

/-- What a line says. -/
structure Says (l : Line) (o : Opt) : Prop where
  counts : ∀ v ∈ values 116 l.options, ∃ n, Positive v n
  default : values 116 l.options = [] → o.nThreads = DEFAULT_THREAD_COUNT
  nThreads : ∀ v, (values 116 l.options).getLast? = some v → ∃ n : Nat, Positive v n ∧ o.nThreads = n
  logPath : o.logPath = (values 108 l.options).getLast?
  port : ∃ w, l.operands.head? = some w ∧ ∃ n : Nat, Positive w n ∧ n ≤ 65535 ∧ o.port = n

section
variable {permute : Bool} {argv : List Bytes} {o : Opt}

theorem run_iff (b : Opt) (os : List Bytes) :
    run OPTIONS permute optCase (argv.drop 1) ⟨DEFAULT_THREAD_COUNT, none, 0⟩ = some (b, os) ↔
      ∃ l : Line, l.Ok OPTIONS permute ∧ l.text = argv.drop 1 ∧
        l.options.foldlM optCase ⟨DEFAULT_THREAD_COUNT, none, 0⟩ = some b ∧ os = l.operands :=
  loop_iff rfl (fun a v => by cases v <;> rfl) _ _

theorem says_of_optParse (h : optParse permute argv = some o) :
    ∃ l : Line, l.Ok OPTIONS permute ∧ l.text = argv.drop 1 ∧ Says l o := by
  unfold optParse at h
  split at h
  · rename_i opts w ws hrun
    obtain ⟨l, hl, htext, hopt, hops⟩ := (run_iff opts (w :: ws)).mp hrun
    obtain ⟨hcounts, hthreads, hlog, -⟩ :=
      (foldlM_optCase l.options (fun o ho => options_known hl ho) _ _).mp hopt
    simp only at h
    split at h
    · cases h
    · rename_i hport
      cases h
      simp only [not_or, Int.not_lt] at hport
      obtain ⟨n, hn⟩ := Int.eq_ofNat_of_zero_le hport.1
      refine ⟨l, hl, htext, hcounts, ?_, ?_, ?_, w, by rw [← hops]; rfl, n,
        (parsePositive_iff w n).mp hn, by omega, hn⟩
      · intro hnil
        rw [hthreads, hnil]
        rfl
      · intro v hv
        obtain ⟨k, hk⟩ := hcounts v (List.mem_of_getLast? hv)
        exact ⟨k, hk, by rw [hthreads, hv]; exact (parsePositive_iff v k).mpr hk⟩
      · rw [hlog]; simp
  · cases h

theorem optParse_of_says {l : Line} (hl : l.Ok OPTIONS permute) (htext : l.text = argv.drop 1)
    (hs : Says l o) : optParse permute argv = some o := by
  obtain ⟨w, hw, n, hn, hle, hport⟩ := hs.port
  obtain ⟨ws, hws⟩ := List.head?_eq_some_iff.mp hw
  have hopt := (foldlM_optCase l.options (fun o ho => options_known hl ho)
    ⟨DEFAULT_THREAD_COUNT, none, 0⟩ { o with port := 0 }).mpr ⟨hs.counts, ?_, ?_, rfl⟩
  · have hrun := (run_iff { o with port := 0 } (w :: ws)).mpr ⟨l, hl, htext, hopt, hws.symm⟩
    unfold optParse
    rw [hrun]
    simp only [(parsePositive_iff w n).mpr hn]
    rw [if_neg (by omega), ← hport]
  · cases hlast : (values 116 l.options).getLast? with
    | none => exact hs.default (List.getLast?_eq_none_iff.mp hlast)
    | some v =>
      obtain ⟨k, hk, ho⟩ := hs.nThreads v hlast
      rw [Option.map_some, Option.getD_some, (parsePositive_iff v k).mpr hk]
      exact ho
  · rw [hs.logPath]; simp

/-- Whoever gets past `opt_parse` has a worker, and a port that `htons` keeps. -/
theorem optParse_range (h : optParse permute argv = some o) :
    (1 ≤ o.nThreads ∧ o.nThreads ≤ INT_MAX) ∧ 1 ≤ o.port ∧ o.port ≤ 65535 := by
  have hrange : ∀ {s : Bytes} {n : Nat}, Positive s n → 1 ≤ (n : Int) ∧ (n : Int) ≤ INT_MAX := by
    rintro s n ⟨_, _, _, -, -, -, -, -, -, h1, h2⟩
    exact ⟨by omega, h2⟩
  obtain ⟨l, -, -, hs⟩ := says_of_optParse h
  obtain ⟨w, -, n, hn, hle, hport⟩ := hs.port
  have hpos := (hrange hn).1
  refine ⟨?_, by omega, by omega⟩
  cases hlast : (values 116 l.options).getLast? with
  | none =>
    rw [hs.default (List.getLast?_eq_none_iff.mp hlast)]
    decide
  | some v =>
    obtain ⟨k, hk, ho⟩ := hs.nThreads v hlast
    rw [ho]
    exact hrange hk

end

/-- **`opt_parse` accepts exactly the command lines of the usage message**, and
what it accepts is in range. -/
theorem opt_parse_accepts (permute : Bool) (argv : List Bytes) (o : Opt) :
    (optParse permute argv = some o ↔
      ∃ l : Line, l.Ok OPTIONS permute ∧ l.text = argv.drop 1 ∧ Says l o) ∧
    (optParse permute argv = some o →
      (1 ≤ o.nThreads ∧ o.nThreads ≤ INT_MAX) ∧ 1 ≤ o.port ∧ o.port ≤ 65535) := by
  refine ⟨⟨says_of_optParse, fun h => ?_⟩, optParse_range⟩
  obtain ⟨l, hl, htext, hs⟩ := h
  exact optParse_of_says hl htext hs

/-- `-t4 8080 -l log`, with a `getopt` that permutes. -/
theorem opt_parse_accepts_mixed :
    optParse true [ascii "httpserver", ascii "-t4", ascii "8080", ascii "-l", ascii "log"] =
      some ⟨4, some (ascii "log"), 8080⟩ ∧
    (∃ l : Line, l.Ok OPTIONS true ∧
      l.text = [ascii "-t4", ascii "8080", ascii "-l", ascii "log"] ∧
      Says l ⟨4, some (ascii "log"), 8080⟩) ∧ 1 ≤ (4 : Int) := by
  have h : optParse true [ascii "httpserver", ascii "-t4", ascii "8080", ascii "-l", ascii "log"] =
      some ⟨4, some (ascii "log"), 8080⟩ := by decide
  have hall := opt_parse_accepts true
    [ascii "httpserver", ascii "-t4", ascii "8080", ascii "-l", ascii "log"]
    ⟨4, some (ascii "log"), 8080⟩
  exact ⟨h, hall.1.mp h, (hall.2 h).1.1⟩

end HttpC.L8
