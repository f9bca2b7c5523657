/-
# PqcMigration.Benchmarks.Lines — the lines of a benchmark output, and what the two parsers read in one.

A line with a result is

    BenchmarkSign_MLDSA65_1KB-12    20804    57443 ns/op    640 B/op    8 allocs/op

and both parsers match it with a regular expression. The two expressions differ in the number before
`ns/op`: digits and dots for Python, a decimal numeral for Go. The characters they take for letters, digits
and blanks are the same in ASCII only, so what Python has for them is a parameter (`PyClasses`). Python
strips the line first.

What follows `ns/op` is any text of printable characters, in which the memory figures may be found or not.
Without the number of processors, which is left out when it is 1, neither expression matches. All other
lines of the output are those in which neither parser can find anything (`NoSample`).

Numbers are exact: `decimal` is the value of a numeral, for `float` and for `strconv.ParseFloat`.
-/
import Mathlib.Data.Rat.Defs
import PqcMigration.Benchmarks.Names

namespace PqcMigration.Benchmarks

open Lib

/-! ## Classes of characters -/

/-- `\w`, `\d` and `\s` -/
structure Classes where
  word : Char → Bool
  digit : Char → Bool
  space : Char → Bool

/-- Those of Go's `regexp`. -/
def goClasses : Classes where
  word c := c.isAlphanum || c == '_'
  digit c := c.isDigit
  space c := c == ' ' || c == '\t' || c == '\n' || c == '\r' || c == '\x0c'

/-- A printable ASCII character, or a tab. -/
def Plain (c : Char) : Prop := c = '\t' ∨ (32 ≤ c.toNat ∧ c.toNat ≤ 126)

instance (c : Char) : Decidable (Plain c) := inferInstanceAs (Decidable (_ ∨ _))

/-- Classes that are Go's on plain characters. -/
structure Classes.Ascii (cls : Classes) : Prop where
  word_eq : ∀ c, Plain c → cls.word c = goClasses.word c
  digit_eq : ∀ c, Plain c → cls.digit c = goClasses.digit c
  space_eq : ∀ c, Plain c → cls.space c = goClasses.space c

/-- Those of Python's `re` and `str.strip`: beyond ASCII they know more. -/
structure PyClasses extends Classes where
  ascii : toClasses.Ascii

/-! ## The regular expressions -/

/-- The groups that are used. -/
structure Match where
  name : Text
  ns : Text
  bytes : Option Text
  allocs : Option Text
  deriving DecidableEq

section Regex

variable (cls : Classes)

/-- `\s+(\d+)\s+B/op` and `\s+(\d+)\s+allocs/op` -/
def figure (unit s : Text) : Option (Text × Text) :=
  (token cls.space s).bind fun blanks =>
    (token cls.digit blanks.2).bind fun number =>
      (token cls.space number.2).bind fun blanks =>
        (literal unit blanks.2).map fun rest => (number.1, rest)

/-- `(?:\s+(\d+)\s+B/op)?` and the like: the group, and the rest. -/
def optFigure (unit s : Text) : Option Text × Text :=
  match figure cls unit s with
  | some (number, rest) => (some number, rest)
  | none => (none, s)

/-- The memory figures, after `ns/op`. -/
def figures (s : Text) : Option Text × Option Text :=
  let bytes := optFigure cls "B/op".toList s
  (bytes.1, (optFigure cls "allocs/op".toList bytes.2).1)

/-- `^Benchmark(\w+)-\d+\s+(\d+)\s+(NUMBER)\s+ns/op(?:\s+(\d+)\s+B/op)?(?:\s+(\d+)\s+allocs/op)?` -/
def benchRegex (number : Text → Option (Text × Text)) (s : Text) : Option Match :=
  (literal "Benchmark".toList s).bind fun s =>
    (token cls.word s).bind fun name =>
      (literal "-".toList name.2).bind fun s =>
        (token cls.digit s).bind fun procs =>
          (token cls.space procs.2).bind fun blanks =>
            (token cls.digit blanks.2).bind fun iterations =>
              (token cls.space iterations.2).bind fun blanks =>
                (number blanks.2).bind fun ns =>
                  (token cls.space ns.2).bind fun blanks =>
                    (literal "ns/op".toList blanks.2).map fun s =>
                      ⟨name.1, ns.1, (figures cls s).1, (figures cls s).2⟩

end Regex

namespace Python

/-- `[\d.]+` -/
def number (py : PyClasses) (s : Text) : Option (Text × Text) :=
  token (fun c => py.digit c || c == '.') s

/-- `line.strip()` -/
def strip (py : PyClasses) (line : Text) : Text := (line.dropWhile py.space).rdropWhile py.space

def regex (py : PyClasses) (line : Text) : Option Match :=
  benchRegex py.toClasses (number py) (strip py line)

end Python

namespace Go

/-- `\d+(?:\.\d+)?` -/
def number (s : Text) : Option (Text × Text) :=
  (token goClasses.digit s).map fun whole =>
    match (literal ".".toList whole.2).bind (token goClasses.digit) with
    | some frac => (whole.1 ++ '.' :: frac.1, frac.2)
    | none => whole

def regex (line : Text) : Option Match := benchRegex goClasses number line

end Go

/-! ## Samples -/

structure Sample where
  nsPerOp : ℚ
  bytesPerOp : ℕ
  allocsPerOp : ℕ

/-- The value of a text of digits and dots; `none` where `float` raises a `ValueError`. -/
def decimal (s : Text) : Option ℚ :=
  match s.splitOn '.' with
  | [whole] => if whole = [] then none else some (valueOf whole)
  | [whole, frac] =>
      if whole ++ frac = [] then none else some (valueOf whole + valueOf frac / 10 ^ frac.length)
  | _ => none

namespace Python

inductive Error where
  | valueError
  deriving DecidableEq

/-- `int(match.group(4)) if match.group(4) else 0` -/
def group (g : Option Text) : ℕ := g.elim 0 valueOf

/-- One turn of the loop over the lines. -/
def readLine (py : PyClasses) (line : Text) : Except Error (Option (Text × Sample)) :=
  match regex py line with
  | none => .ok none
  | some m =>
      match decimal m.ns with
      | none => .error .valueError
      | some ns => .ok (some (m.name, ⟨ns, group m.bytes, group m.allocs⟩))

end Python

namespace Go

/-- `strconv.ParseInt(matches[4], 10, 64)`, its error ignored; 0 without a match. -/
def group (g : Option Text) : ℕ := g.elim 0 fun ds => min (valueOf ds) (2 ^ 63 - 1)

def readLine (line : Text) : Option (Text × Sample) :=
  (regex line).map fun m => (m.name, ⟨(decimal m.ns).getD 0, group m.bytes, group m.allocs⟩)

end Go

/-! ## Lines -/

/-- Blanks between the columns. -/
structure Gap where
  text : Text
  nonempty : text ≠ []
  blank : ∀ c ∈ text, c = ' ' ∨ c = '\t'

/-- A line with a result. -/
structure BenchLine where
  name : Name
  /-- the number of processors, left out when it is 1 -/
  procs : Option Digits
  gap₁ : Gap
  iterations : Digits
  gap₂ : Gap
  whole : Digits
  frac : Option Digits
  gap₃ : Gap
  /-- what follows `ns/op` -/
  tail : Text
  plain : ∀ c ∈ tail, Plain c

namespace BenchLine

/-- The number before `ns/op`. -/
def number (b : BenchLine) : Text := b.whole.text ++ b.frac.elim [] fun f => '.' :: f.text

/-- The line up to and with `ns/op`, and then `rest`. -/
def textWith (b : BenchLine) (rest : Text) : Text :=
  "Benchmark".toList ++ (b.name.text ++ ((b.procs.elim [] fun d => '-' :: d.text) ++ (b.gap₁.text ++
    (b.iterations.text ++ (b.gap₂.text ++ (b.number ++ (b.gap₃.text ++ ("ns/op".toList ++ rest))))))))

def text (b : BenchLine) : Text := b.textWith b.tail

/-- The nanoseconds of an operation. -/
def ns (b : BenchLine) : ℚ := b.whole.value + b.frac.elim 0 fun f => (f.value : ℚ) / 10 ^ f.text.length

/-- What the line says; a memory figure that is not there is 0. -/
def sample (b : BenchLine) : Sample where
  nsPerOp := b.ns
  bytesPerOp := (figures goClasses b.tail).1.elim 0 valueOf
  allocsPerOp := (figures goClasses b.tail).2.elim 0 valueOf

end BenchLine

/-- Nothing to match: the line does not begin with `Benchmark` or has no `ns/op` in it. -/
def NoSample (py : PyClasses) (line : Text) : Prop :=
  ¬ "Benchmark".toList <+: line.dropWhile py.space ∨ ¬ "ns/op".toList <:+: line

/-- A line of the output. -/
inductive OutputLine (py : PyClasses) where
  | result (b : BenchLine)
  | other (text : Text) (noSample : NoSample py text)

def OutputLine.text {py : PyClasses} : OutputLine py → Text
  | .result b => b.text
  | .other text _ => text

/-- The benchmark a line is of and what it says, if it says anything to the parsers. -/
def OutputLine.sample {py : PyClasses} : OutputLine py → Option (Text × Sample)
  | .result b => b.procs.map fun _ => (b.name.text, b.sample)
  | .other _ _ => none

/-! ## The classes at the characters of a line -/

section Chars

variable {cls : Classes}

theorem goClasses_ascii : goClasses.Ascii := ⟨fun _ _ => rfl, fun _ _ => rfl, fun _ _ => rfl⟩

theorem plain_of_isDigit {c : Char} (h : c.isDigit = true) : Plain c := by
  obtain ⟨hle, hge⟩ := Char.isDigit_iff_toNat.mp h
  have h0 : '0'.toNat = 48 := rfl
  have h9 : '9'.toNat = 57 := rfl
  exact .inr (by omega)

theorem Classes.Ascii.digit (h : cls.Ascii) {c : Char} (hc : c.isDigit = true) :
    cls.digit c = true ∧ cls.space c = false := by
  have hplain := plain_of_isDigit hc
  refine ⟨(h.digit_eq c hplain).trans hc, (h.space_eq c hplain).trans ?_⟩
  have hne : ∀ d : Char, d.isDigit = false → (c == d) = false := by
    intro d hd
    rw [beq_eq_false_iff_ne]
    rintro rfl
    simp [hc] at hd
  unfold goClasses
  simp only [hne ' ' rfl, hne '\t' rfl, hne '\n' rfl, hne '\r' rfl, hne '\x0c' rfl, Bool.or_self]

theorem Classes.Ascii.blank (h : cls.Ascii) {c : Char} (hc : c = ' ' ∨ c = '\t') :
    cls.word c = false ∧ cls.digit c = false ∧ cls.space c = true := by
  have hplain : Plain c := by
    rcases hc with rfl | rfl
    · exact .inr (by decide)
    · exact .inl rfl
  rw [h.word_eq c hplain, h.digit_eq c hplain, h.space_eq c hplain]
  rcases hc with rfl | rfl <;> exact ⟨rfl, rfl, rfl⟩

theorem blank_of_space {c : Char} (hplain : Plain c) (hspace : goClasses.space c = true) :
    c = ' ' ∨ c = '\t' := by
  simp only [goClasses, Bool.or_eq_true, beq_iff_eq] at hspace
  rcases hspace with (((hc | hc) | rfl) | rfl) | rfl
  · exact .inl hc
  · exact .inr hc
  all_goals exact absurd hplain (by decide)

/-- What follows begins with a blank. -/
theorem Gap.head (g : Gap) {p : Char → Bool} (hp : ∀ c, c = ' ' ∨ c = '\t' → p c = false) (rest : Text) :
    ∀ c ∈ (g.text ++ rest).head?, p c = false := by
  obtain ⟨c, x, hg⟩ := List.exists_cons_of_ne_nil g.nonempty
  rw [hg]
  rintro d ⟨⟩
  exact hp c (g.blank c (by simp [hg]))

/-- What follows begins with a digit. -/
theorem Digits.head (d : Digits) {p : Char → Bool} (hp : ∀ c, c.isDigit = true → p c = false) (rest : Text) :
    ∀ c ∈ (d.text ++ rest).head?, p c = false := by
  obtain ⟨c, x, hd⟩ := List.exists_cons_of_ne_nil d.nonempty
  rw [hd]
  rintro e ⟨⟩
  exact hp c (d.isDigit c (by simp [hd]))

theorem Name.text_ne_nil (n : Name) : n.text ≠ [] := by
  rw [n.text_eq]
  simp

/-- A name is made of letters, digits and underscores. -/
theorem Name.word_text (h : cls.Ascii) (n : Name) : ∀ c ∈ n.text, cls.word c = true := by
  have hword : ∀ c ∈ n.text, Plain c ∧ goClasses.word c = true := by
    have hfixed : ∀ t ∈ [Operation.keyGen.text, Operation.sign.text, Operation.verify.text,
        Operation.batchVerify.text, Operation.concurrentSign.text, Operation.throughput.text,
        Scheme.secp256k1.text, Scheme.mldsa65.text, "_BKM".toList], ∀ c ∈ t,
        Plain c ∧ goClasses.word c = true := fun t ht => forall_mem_of_all (by revert t; decide)
    have hdigit : ∀ c : Char, c.isDigit = true → Plain c ∧ goClasses.word c = true := by
      intro c hc
      exact ⟨plain_of_isDigit hc, by simp [goClasses, Char.isAlphanum, hc]⟩
    intro c hc
    rw [n.text_eq, List.mem_append, List.mem_cons, List.mem_append] at hc
    rcases hc with hoperation | rfl | hscheme | hsuffix
    · exact hfixed _ (by cases n.operation <;> decide) c hoperation
    · exact hfixed "_BKM".toList (by decide) '_' (by decide)
    · exact hfixed _ (by cases n.scheme <;> decide) c hscheme
    · unfold Name.suffix at hsuffix
      cases hp : n.param with
      | none => simp [hp] at hsuffix
      | some p =>
          rw [hp, Option.elim_some, List.mem_cons] at hsuffix
          rcases hsuffix with rfl | hparam
          · exact hfixed "_BKM".toList (by decide) '_' (by decide)
          · rcases Param.isDigit_or_mem hparam with hc | hc
            · exact hdigit c hc
            · exact hfixed "_BKM".toList (by decide) c (List.mem_cons_of_mem '_' hc)
  intro c hc
  obtain ⟨hplain, hc⟩ := hword c hc
  rw [h.word_eq c hplain, hc]

end Chars

/-! ## What the expressions find in a line with a result -/

section Find

variable {cls : Classes} {b : BenchLine}

theorem token_digits (h : cls.Ascii) (d : Digits) (g : Gap) (rest : Text) :
    token cls.digit (d.text ++ (g.text ++ rest)) = some (d.text, g.text ++ rest) :=
  token_append d.nonempty (fun c hc => (h.digit (d.isDigit c hc)).1)
    (g.head (fun _ hc => (h.blank hc).2.1) rest)

theorem token_gap (h : cls.Ascii) (g : Gap) {rest : Text} (hrest : ∀ c ∈ rest.head?, cls.space c = false) :
    token cls.space (g.text ++ rest) = some (g.text, rest) :=
  token_append g.nonempty (fun c hc => (h.blank (g.blank c hc)).2.2) hrest

/-- No other character is found at a gap. -/
theorem literal_gap (g : Gap) {c : Char} (hspace : c ≠ ' ') (htab : c ≠ '\t') (rest : Text) :
    literal [c] (g.text ++ rest) = none := by
  obtain ⟨d, x, hg⟩ := List.exists_cons_of_ne_nil g.nonempty
  refine literal_eq_none ?_
  rw [hg, List.cons_append, List.cons_prefix_cons]
  rintro ⟨rfl, -⟩
  rcases g.blank c (by simp [hg]) with hc | hc
  · exact hspace hc
  · exact htab hc

theorem token_gap_digits (h : cls.Ascii) (g : Gap) (d : Digits) (rest : Text) :
    token cls.space (g.text ++ (d.text ++ rest)) = some (g.text, d.text ++ rest) :=
  token_gap h g (d.head (fun _ hc => (h.digit hc).2) rest)

/-- The rest of the line after the name and the number of processors. -/
theorem benchRegex_textWith (h : cls.Ascii) {number : Text → Option (Text × Text)}
    (hnumber : ∀ rest, number (b.number ++ (b.gap₃.text ++ rest)) = some (b.number, b.gap₃.text ++ rest))
    {d : Digits} (hprocs : b.procs = some d) (rest : Text) :
    benchRegex cls number (b.textWith rest) =
      some ⟨b.name.text, b.number, (figures cls rest).1, (figures cls rest).2⟩ := by
  have hname : ∀ r, token cls.word (b.name.text ++ '-' :: r) = some (b.name.text, '-' :: r) := by
    intro r
    refine token_append b.name.text_ne_nil (b.name.word_text h) ?_
    rintro c ⟨⟩
    exact h.word_eq '-' (by decide)
  have hdash : ∀ r, literal "-".toList ('-' :: r) = some r := literal_self_append "-".toList
  have hgap₂ : ∀ r, token cls.space (b.gap₂.text ++ (b.number ++ r)) = some (b.gap₂.text, b.number ++ r) := by
    intro r
    unfold BenchLine.number
    rw [List.append_assoc]
    exact token_gap_digits h b.gap₂ b.whole _
  have hgap₃ : ∀ r, token cls.space (b.gap₃.text ++ ("ns/op".toList ++ r)) =
      some (b.gap₃.text, "ns/op".toList ++ r) := by
    intro r
    refine token_gap h b.gap₃ ?_
    rintro c ⟨⟩
    exact h.space_eq 'n' (by decide)
  unfold BenchLine.textWith benchRegex
  rw [hprocs, Option.elim_some, List.cons_append]
  simp only [literal_self_append, Option.bind_some, hname, hdash, token_digits h, token_gap_digits h, hgap₂,
    hnumber, hgap₃, Option.map_some]

theorem benchRegex_textWith_none (h : cls.Ascii) {number : Text → Option (Text × Text)}
    (hprocs : b.procs = none) (rest : Text) : benchRegex cls number (b.textWith rest) = none := by
  have hname : ∀ r, token cls.word (b.name.text ++ (b.gap₁.text ++ r)) =
      some (b.name.text, b.gap₁.text ++ r) := fun r =>
    token_append b.name.text_ne_nil (b.name.word_text h) (b.gap₁.head (fun _ hc => (h.blank hc).1) r)
  have hdash : ∀ r, literal "-".toList (b.gap₁.text ++ r) = none :=
    literal_gap b.gap₁ (by decide) (by decide)
  unfold BenchLine.textWith benchRegex
  rw [hprocs, Option.elim_none, List.nil_append]
  simp only [literal_self_append, Option.bind_some, hname, hdash, Option.bind_none]

theorem Python.number_number (py : PyClasses) (b : BenchLine) (rest : Text) :
    number py (b.number ++ (b.gap₃.text ++ rest)) = some (b.number, b.gap₃.text ++ rest) := by
  unfold number
  refine token_append (by simp [BenchLine.number, b.whole.nonempty]) ?_ ?_
  · intro c hc
    have hdigit : c.isDigit = true ∨ c = '.' := by
      unfold BenchLine.number at hc
      rcases List.mem_append.mp hc with hwhole | hfrac
      · exact .inl (b.whole.isDigit c hwhole)
      · cases hf : b.frac with
        | none => simp [hf] at hfrac
        | some f =>
            rw [hf, Option.elim_some, List.mem_cons] at hfrac
            exact hfrac.symm.imp_left (f.isDigit c)
    rcases hdigit with hdigit | rfl
    · simp [(py.ascii.digit hdigit).1]
    · simp
  · refine b.gap₃.head ?_ rest
    rintro c hc
    rw [(py.ascii.blank hc).2.1]
    rcases hc with rfl | rfl <;> rfl

theorem Go.number_number (b : BenchLine) (rest : Text) :
    number (b.number ++ (b.gap₃.text ++ rest)) = some (b.number, b.gap₃.text ++ rest) := by
  have hascii := goClasses_ascii
  unfold number BenchLine.number
  cases b.frac with
  | none =>
      have hdot : literal ".".toList (b.gap₃.text ++ rest) = none :=
        literal_gap b.gap₃ (by decide) (by decide) rest
      rw [Option.elim_none, List.append_nil, token_digits hascii, Option.map_some]
      simp only [hdot, Option.bind_none]
  | some f =>
      have hwhole : token goClasses.digit (b.whole.text ++ '.' :: (f.text ++ (b.gap₃.text ++ rest))) =
          some (b.whole.text, '.' :: (f.text ++ (b.gap₃.text ++ rest))) := by
        refine token_append b.whole.nonempty b.whole.isDigit ?_
        rintro c ⟨⟩
        rfl
      have hdot : literal ".".toList ('.' :: (f.text ++ (b.gap₃.text ++ rest))) =
          some (f.text ++ (b.gap₃.text ++ rest)) := literal_self_append ".".toList _
      rw [Option.elim_some, List.append_assoc, List.cons_append, hwhole, Option.map_some]
      simp only [hdot, Option.bind_some, token_digits hascii]

/-! ## The memory figures -/

theorem figure_isSuffix {unit s : Text} {x : Text × Text} (h : figure cls unit s = some x) : x.2 <:+ s := by
  unfold figure at h
  obtain ⟨blanks, hblanks, h⟩ := Option.bind_eq_some_iff.mp h
  obtain ⟨number, hnumber, h⟩ := Option.bind_eq_some_iff.mp h
  obtain ⟨blanks', hblanks', h⟩ := Option.bind_eq_some_iff.mp h
  obtain ⟨rest, hrest, rfl⟩ := Option.map_eq_some_iff.mp h
  have hunit : rest <:+ blanks'.2 := ⟨unit, (literal_eq_some hrest).symm⟩
  exact hunit.trans ((token_isSuffix hblanks').trans ((token_isSuffix hnumber).trans (token_isSuffix hblanks)))

theorem optFigure_isSuffix (cls : Classes) (unit s : Text) : (optFigure cls unit s).2 <:+ s := by
  unfold optFigure
  split
  · next hfigure => exact figure_isSuffix hfigure
  · exact List.suffix_rfl

section Congr

variable {cls' : Classes} {s : Text}

theorem figure_congr (h : ∀ c ∈ s, cls.digit c = cls'.digit c ∧ cls.space c = cls'.space c) (unit : Text) :
    figure cls unit s = figure cls' unit s := by
  unfold figure
  rw [token_congr fun c hc => (h c hc).2]
  refine Option.bind_congr fun blanks hblanks => ?_
  have hsub := (token_isSuffix hblanks).subset
  rw [token_congr fun c hc => (h c (hsub hc)).1]
  refine Option.bind_congr fun number hnumber => ?_
  have hsub' := (token_isSuffix hnumber).subset
  rw [token_congr fun c hc => (h c (hsub (hsub' hc))).2]

theorem optFigure_congr (h : ∀ c ∈ s, cls.digit c = cls'.digit c ∧ cls.space c = cls'.space c)
    (unit : Text) : optFigure cls unit s = optFigure cls' unit s := by
  unfold optFigure
  rw [figure_congr h]

/-- The figures found depend on the classes at the characters of the text only. -/
theorem figures_congr (h : ∀ c ∈ s, cls.digit c = cls'.digit c ∧ cls.space c = cls'.space c) :
    figures cls s = figures cls' s := by
  unfold figures
  rw [optFigure_congr h]
  have hsub := (optFigure_isSuffix cls' "B/op".toList s).subset
  dsimp only
  rw [optFigure_congr fun c hc => h c (hsub hc)]

end Congr

section Blanks

variable {s w unit : Text}

theorem figure_append (hw : ∀ c ∈ w, c = ' ' ∨ c = '\t') (hne : unit ≠ []) (hunit : ∀ c ∈ unit, c ∉ w) :
    figure goClasses unit (s ++ w) = (figure goClasses unit s).map fun x => (x.1, x.2 ++ w) := by
  have hspace : ∀ c ∈ w, goClasses.space c = true := fun c hc => (goClasses_ascii.blank (hw c hc)).2.2
  have hdigit : ∀ c ∈ w, goClasses.digit c = false := fun c hc => (goClasses_ascii.blank (hw c hc)).2.1
  unfold figure
  refine token_bind_append (f := fun r => (token goClasses.digit r).bind fun number =>
    (token goClasses.space number.2).bind fun blanks =>
      (literal unit blanks.2).map fun rest => (number.1, rest)) hspace rfl fun r => ?_
  rw [token_append_of_none hdigit]
  cases token goClasses.digit r with
  | none => rfl
  | some number =>
      refine token_bind_append (f := fun r => (literal unit r).map fun rest => (number.1, rest)) hspace ?_ ?_
      · rw [literal_eq_none (by simpa using hne), Option.map_none]
      · intro r
        rw [literal_append hunit, Option.map_map, Option.map_map]
        rfl

theorem optFigure_append (hw : ∀ c ∈ w, c = ' ' ∨ c = '\t') (hne : unit ≠ []) (hunit : ∀ c ∈ unit, c ∉ w) :
    optFigure goClasses unit (s ++ w) =
      ((optFigure goClasses unit s).1, (optFigure goClasses unit s).2 ++ w) := by
  unfold optFigure
  rw [figure_append hw hne hunit]
  cases figure goClasses unit s <;> rfl

/-- Blanks at the end of the line make no difference. -/
theorem figures_append (hw : ∀ c ∈ w, c = ' ' ∨ c = '\t') :
    figures goClasses (s ++ w) = figures goClasses s := by
  have hno : ∀ unit : Text, (∀ c ∈ unit, c ≠ ' ' ∧ c ≠ '\t') → ∀ c ∈ unit, c ∉ w :=
    fun _ hunit c hc hmem => (hw c hmem).elim (hunit c hc).1 (hunit c hc).2
  have hB := hno "B/op".toList (forall_mem_of_all (by decide))
  have hallocs := hno "allocs/op".toList (forall_mem_of_all (by decide))
  unfold figures
  rw [optFigure_append hw (by decide) hB]
  dsimp only
  rw [optFigure_append hw (by decide) hallocs]

end Blanks

/-! ## Both parsers read a line alike -/

theorem BenchLine.textWith_eq (b : BenchLine) :
    ∃ front, ∀ rest, b.textWith rest = front ++ "ns/op".toList ++ rest := by
  refine ⟨"Benchmark".toList ++ (b.name.text ++ ((b.procs.elim [] fun d => '-' :: d.text) ++
    (b.gap₁.text ++ (b.iterations.text ++ (b.gap₂.text ++ (b.number ++ b.gap₃.text)))))), fun rest => ?_⟩
  unfold BenchLine.textWith
  simp only [List.append_assoc]

/-- Stripping a line takes blanks from its end. -/
theorem Python.strip_text (py : PyClasses) (b : BenchLine) :
    strip py b.text = b.textWith (b.tail.rdropWhile py.space) := by
  obtain ⟨front, hfront⟩ := b.textWith_eq
  have hB : py.space 'B' = false := py.ascii.space_eq 'B' (by decide)
  have hp : py.space 'p' = false := py.ascii.space_eq 'p' (by decide)
  have hleft : b.text.dropWhile py.space = b.text := List.dropWhile_cons_of_neg (Bool.eq_false_iff.mp hB)
  have hlast : ∀ c ∈ (front ++ "ns/op".toList).getLast?, py.space c = false := by
    intro c hc
    rw [List.getLast?_append_of_ne_nil _ (by decide)] at hc
    obtain rfl : 'p' = c := Option.some.inj hc
    exact hp
  unfold strip
  rw [hleft, BenchLine.text, hfront, hfront, rdropWhile_append_of_last hlast]

/-- A number is its value. -/
theorem decimal_number (b : BenchLine) : decimal b.number = some b.ns := by
  have hdot : ∀ d : Digits, '.' ∉ d.text := by
    intro d hmem
    exact absurd (d.isDigit '.' hmem) (by decide)
  unfold decimal BenchLine.number BenchLine.ns
  cases b.frac with
  | none =>
      have hsplit : b.whole.text.splitOn '.' = [b.whole.text] := by
        have hone : List.splitOn '.' (List.intercalate ['.'] [b.whole.text]) = [b.whole.text] :=
          List.splitOn_intercalate '.' (by simp [hdot]) (by simp)
        simpa [List.intercalate] using hone
      simp [hsplit, b.whole.nonempty, Digits.value]
  | some f =>
      have hsplit : (b.whole.text ++ '.' :: f.text).splitOn '.' = [b.whole.text, f.text] := by
        have htwo : List.splitOn '.' (List.intercalate ['.'] [b.whole.text, f.text]) =
            [b.whole.text, f.text] := List.splitOn_intercalate '.' (by simp [hdot]) (by simp)
        simpa [List.intercalate] using htwo
      simp [hsplit, b.whole.nonempty, Digits.value]

theorem Python.regex_text (py : PyClasses) (b : BenchLine) :
    regex py b.text = b.procs.map fun _ =>
      ⟨b.name.text, b.number, (figures goClasses b.tail).1, (figures goClasses b.tail).2⟩ := by
  have hfigures : figures py.toClasses (b.tail.rdropWhile py.space) = figures goClasses b.tail := by
    have hkept : ∀ c ∈ b.tail.rdropWhile py.space, Plain c :=
      fun c hc => b.plain c ((List.rdropWhile_prefix py.space b.tail).subset hc)
    have hdropped : ∀ c ∈ b.tail.rtakeWhile py.space, c = ' ' ∨ c = '\t' := by
      intro c hc
      have hplain : Plain c := b.plain c ((List.rtakeWhile_suffix py.space b.tail).subset hc)
      exact blank_of_space hplain (py.ascii.space_eq c hplain ▸ List.mem_rtakeWhile_imp hc)
    rw [figures_congr fun c hc => ⟨py.ascii.digit_eq c (hkept c hc), py.ascii.space_eq c (hkept c hc)⟩,
      ← figures_append hdropped, List.rdropWhile_append_rtakeWhile]
  unfold regex
  rw [strip_text, ← hfigures]
  cases hprocs : b.procs with
  | none => exact benchRegex_textWith_none py.ascii hprocs _
  | some d => exact benchRegex_textWith py.ascii (number_number py b) hprocs _

theorem Go.regex_text (b : BenchLine) :
    regex b.text = b.procs.map fun _ =>
      ⟨b.name.text, b.number, (figures goClasses b.tail).1, (figures goClasses b.tail).2⟩ := by
  unfold regex BenchLine.text
  cases hprocs : b.procs with
  | none => exact benchRegex_textWith_none goClasses_ascii hprocs b.tail
  | some d => exact benchRegex_textWith goClasses_ascii (Go.number_number b) hprocs b.tail

/-- What is needed for a match. -/
theorem benchRegex_eq_some {number : Text → Option (Text × Text)}
    (hnumber : ∀ s x, number s = some x → x.2 <:+ s) {s : Text} {m : Match}
    (h : benchRegex cls number s = some m) : "Benchmark".toList <+: s ∧ "ns/op".toList <:+: s := by
  unfold benchRegex at h
  obtain ⟨s₁, h₁, h⟩ := Option.bind_eq_some_iff.mp h
  obtain ⟨name, hname, h⟩ := Option.bind_eq_some_iff.mp h
  obtain ⟨s₂, h₂, h⟩ := Option.bind_eq_some_iff.mp h
  obtain ⟨procs, hprocs, h⟩ := Option.bind_eq_some_iff.mp h
  obtain ⟨blanks₁, hblanks₁, h⟩ := Option.bind_eq_some_iff.mp h
  obtain ⟨iterations, hiterations, h⟩ := Option.bind_eq_some_iff.mp h
  obtain ⟨blanks₂, hblanks₂, h⟩ := Option.bind_eq_some_iff.mp h
  obtain ⟨ns, hns, h⟩ := Option.bind_eq_some_iff.mp h
  obtain ⟨blanks₃, hblanks₃, h⟩ := Option.bind_eq_some_iff.mp h
  obtain ⟨rest, hrest, -⟩ := Option.map_eq_some_iff.mp h
  refine ⟨⟨s₁, (literal_eq_some h₁).symm⟩, ?_⟩
  have hs₁ : s₁ <:+ s := ⟨_, (literal_eq_some h₁).symm⟩
  have hs₂ : s₂ <:+ name.2 := ⟨_, (literal_eq_some h₂).symm⟩
  have hunit : "ns/op".toList <+: blanks₃.2 := ⟨rest, (literal_eq_some hrest).symm⟩
  have hsuffix : blanks₃.2 <:+ s :=
    (token_isSuffix hblanks₃).trans <| (hnumber _ _ hns).trans <| (token_isSuffix hblanks₂).trans <|
      (token_isSuffix hiterations).trans <| (token_isSuffix hblanks₁).trans <|
      (token_isSuffix hprocs).trans <| hs₂.trans <| (token_isSuffix hname).trans hs₁
  exact hunit.isInfix.trans hsuffix.isInfix

theorem Go.number_isSuffix {s : Text} {x : Text × Text} (h : number s = some x) : x.2 <:+ s := by
  unfold number at h
  obtain ⟨whole, hwhole, rfl⟩ := Option.map_eq_some_iff.mp h
  split
  · next frac hfrac =>
    obtain ⟨rest, hdot, hfrac⟩ := Option.bind_eq_some_iff.mp hfrac
    have hrest : rest <:+ whole.2 := ⟨_, (literal_eq_some hdot).symm⟩
    exact (token_isSuffix hfrac).trans (hrest.trans (token_isSuffix hwhole))
  · exact token_isSuffix hwhole

theorem Python.regex_other {py : PyClasses} {line : Text} (h : NoSample py line) : regex py line = none := by
  by_contra hsome
  obtain ⟨m, hm⟩ := Option.ne_none_iff_exists'.mp hsome
  obtain ⟨hstart, hunit⟩ := benchRegex_eq_some (fun _ _ => token_isSuffix) hm
  have hstrip : strip py line <+: line.dropWhile py.space := List.rdropWhile_prefix _ _
  rcases h with h | h
  · exact h (hstart.trans hstrip)
  · exact h (hunit.trans (hstrip.isInfix.trans (List.dropWhile_suffix _).isInfix))

theorem Go.regex_other {py : PyClasses} {line : Text} (h : NoSample py line) : regex line = none := by
  by_contra hsome
  obtain ⟨m, hm⟩ := Option.ne_none_iff_exists'.mp hsome
  obtain ⟨hstart, hunit⟩ := benchRegex_eq_some (fun _ _ => number_isSuffix) hm
  rcases h with h | h
  · -- a line that begins with `Benchmark` has no blanks to strip
    obtain ⟨rest, rfl⟩ := hstart
    have hB : py.space 'B' = false := py.ascii.space_eq 'B' (by decide)
    have hleft : ("Benchmark".toList ++ rest).dropWhile py.space = "Benchmark".toList ++ rest :=
      List.dropWhile_cons_of_neg (Bool.eq_false_iff.mp hB)
    rw [hleft] at h
    exact h (List.prefix_append _ rest)
  · exact h hunit

/-- **Python reads what a line says.** -/
theorem Python.readLine_text {py : PyClasses} (line : OutputLine py) :
    readLine py line.text = .ok line.sample := by
  unfold readLine
  cases line with
  | other text h => rw [OutputLine.text, regex_other h]; rfl
  | result b =>
      rw [OutputLine.text, regex_text]
      cases hprocs : b.procs with
      | none => simp [OutputLine.sample, hprocs]
      | some d => simp [OutputLine.sample, hprocs, decimal_number, BenchLine.sample, group]

/-- A figure as Go reads it. -/
def Sample.clamp (x : Sample) : Sample :=
  { x with bytesPerOp := min x.bytesPerOp (2 ^ 63 - 1), allocsPerOp := min x.allocsPerOp (2 ^ 63 - 1) }

/-- **Go reads what a line says**, with figures that end at 2^63 - 1. -/
theorem Go.readLine_text {py : PyClasses} (line : OutputLine py) :
    readLine line.text = line.sample.map fun x => (x.1, x.2.clamp) := by
  unfold readLine
  cases line with
  | other text h => rw [OutputLine.text, regex_other h]; rfl
  | result b =>
      have hgroup : ∀ g : Option Text, group g = min (g.elim 0 valueOf) (2 ^ 63 - 1) := by
        intro g
        cases g <;> simp [group]
      rw [OutputLine.text, regex_text]
      cases hprocs : b.procs with
      | none => simp [OutputLine.sample, hprocs]
      | some d => simp [OutputLine.sample, hprocs, decimal_number, BenchLine.sample, Sample.clamp, hgroup]

end Find

end PqcMigration.Benchmarks
