/-
# PqcMigration.Lib.Json — JSON text, as Python's `json.dumps(v, indent=2)` writes it and `json.loads` reads it.

The reader takes one character at a time and keeps the containers it is inside of on a stack, so that
reading on from where a text was cut is the same as reading the whole (`run_append`). The results are
`loads_dumps` and `loads_take`: a value is read back, and of an object's text no proper initial part is
accepted, since after a complete value only blanks may follow and the text ends in a brace.

A `\u` escape of half a surrogate pair on its own stands for no `Char`; it is refused. Texts are written
in ASCII, so the encoding of the file is not part of this.
-/
import PqcMigration.Lib.Hex
import PqcMigration.Lib.Run

namespace PqcMigration.Lib

namespace Json

/-! ## Scalars -/

/-- Where a number literal stands. -/
inductive NumberState where
  | start
  | minus
  | zero
  | whole
  | point
  | fraction
  | exponent
  | exponentSign
  | exponentDigits
  deriving DecidableEq

/-- `-?(0|[1-9]\d*)(\.\d+)?([eE][-+]?\d+)?` -/
def NumberState.step : NumberState → Char → Option NumberState
  | .start, c =>
      if c = '-' then some .minus
      else if c = '0' then some .zero
      else if c.isDigit then some .whole else none
  | .minus, c =>
      if c = '0' then some .zero else if c.isDigit then some .whole else none
  | .zero, c =>
      if c = '.' then some .point else if c = 'e' ∨ c = 'E' then some .exponent else none
  | .whole, c =>
      if c.isDigit then some .whole
      else if c = '.' then some .point
      else if c = 'e' ∨ c = 'E' then some .exponent else none
  | .point, c => if c.isDigit then some .fraction else none
  | .fraction, c =>
      if c.isDigit then some .fraction else if c = 'e' ∨ c = 'E' then some .exponent else none
  | .exponent, c =>
      if c = '+' ∨ c = '-' then some .exponentSign
      else if c.isDigit then some .exponentDigits else none
  | .exponentSign, c => if c.isDigit then some .exponentDigits else none
  | .exponentDigits, c => if c.isDigit then some .exponentDigits else none

def NumberState.accepting : NumberState → Bool
  | .zero | .whole | .fraction | .exponentDigits => true
  | _ => false

def isNumber (t : List Char) : Bool :=
  (run NumberState.step .start t).any NumberState.accepting

def literals : List (List Char) :=
  ["null".toList, "true".toList, "false".toList, "NaN".toList, "Infinity".toList, "-Infinity".toList]

/-- What `json` reads as a value without quotes or brackets. -/
def isScalar (t : List Char) : Bool := (literals.any fun l => l = t) || isNumber t

/-- The characters a scalar can have. -/
def isTokenChar (c : Char) : Bool := c.isAlphanum || c = '+' || c = '-' || c = '.'

theorem isTokenChar_of_isDigit {c : Char} (h : c.isDigit = true) : isTokenChar c = true := by
  simp [isTokenChar, Char.isAlphanum, h]

theorem isTokenChar_of_step {s s' : NumberState} {c : Char} (h : s.step c = some s') :
    isTokenChar c = true := by
  by_cases hdigit : c.isDigit = true
  · exact isTokenChar_of_isDigit hdigit
  · have hc : c = '-' ∨ c = '0' ∨ c = '.' ∨ c = 'e' ∨ c = 'E' ∨ c = '+' := by
      cases s <;> simp only [NumberState.step, hdigit] at h <;> grind
    rcases hc with rfl | rfl | rfl | rfl | rfl | rfl <;> decide

theorem isTokenChar_of_run {s s' : NumberState} {t : List Char}
    (h : run NumberState.step s t = some s') : ∀ c ∈ t, isTokenChar c = true := by
  induction t generalizing s with
  | nil =>
      intro c hc
      cases hc
  | cons d t ih =>
      obtain ⟨m, hm, hrest⟩ := run_cons_eq_some.mp h
      intro c hc
      rcases List.mem_cons.mp hc with rfl | hc
      · exact isTokenChar_of_step hm
      · exact ih hrest c hc

theorem isTokenChar_of_isScalar {t : List Char} (h : isScalar t = true) :
    ∀ c ∈ t, isTokenChar c = true := by
  rcases Bool.or_eq_true _ _ ▸ h with hlit | hnum
  · have hall : literals.all (fun l => l.all isTokenChar) = true := by decide
    obtain ⟨l, hl, heq⟩ := List.any_eq_true.mp hlit
    obtain rfl := of_decide_eq_true heq
    exact List.all_eq_true.mp (List.all_eq_true.mp hall l hl)
  · cases hrun : run NumberState.step .start t with
    | none =>
        rw [isNumber, hrun] at hnum
        cases hnum
    | some s => exact isTokenChar_of_run hrun

theorem ne_nil_of_isScalar {t : List Char} (h : isScalar t = true) : t ≠ [] := by
  rintro rfl
  revert h
  decide

/-- A scalar, as it is written. -/
abbrev Scalar := { t : List Char // isScalar t = true }

end Json

/-- A document. The fields of an object stand in the order in which they are written. -/
inductive Json where
  | scalar (t : Json.Scalar)
  | str (s : List Char)
  | arr (items : List Json)
  | obj (fields : List (List Char × Json))

namespace Json

theorem isScalar_null : isScalar "null".toList = true := by decide

def null : Json := .scalar ⟨"null".toList, isScalar_null⟩

/-- `str(z)` -/
def intText (z : ℤ) : List Char :=
  if z < 0 then '-' :: Nat.toDigits 10 z.natAbs else Nat.toDigits 10 z.natAbs

theorem run_toDigits {s : NumberState} (hs : s = .start ∨ s = .minus) (n : ℕ) (hn : 0 < n) :
    run NumberState.step s (Nat.toDigits 10 n) = some .whole := by
  induction n using Nat.strong_induction_on with
  | _ n ih =>
      by_cases hlt : n < 10
      · -- one digit, which is not zero
        have hdigit : ∀ d : Fin 10, 0 < d.val →
            NumberState.step .start (Nat.digitChar d) = some .whole ∧
              NumberState.step .minus (Nat.digitChar d) = some .whole := by
          decide
        obtain ⟨hstart, hminus⟩ := hdigit ⟨n, hlt⟩ hn
        rw [Nat.toDigits_of_lt_base hlt, run_cons]
        rcases hs with rfl | rfl
        · rw [hstart]
          rfl
        · rw [hminus]
          rfl
      · have hlast : NumberState.step .whole (Nat.digitChar (n % 10)) = some .whole := by
          have hdigit : (Nat.digitChar (n % 10)).isDigit = true := by
            rw [Nat.isDigit_digitChar, decide_eq_true_iff]
            omega
          simp [NumberState.step, hdigit]
        rw [Nat.toDigits_of_base_le (by omega) (by omega), run_append,
          ih (n / 10) (by omega) (by omega)]
        show (NumberState.step .whole _).bind _ = _
        rw [hlast]
        rfl

theorem isScalar_intText (z : ℤ) : isScalar (intText z) = true := by
  have hnum : isNumber (intText z) = true := by
    rcases Nat.eq_zero_or_pos z.natAbs with hzero | hpos
    · obtain rfl := Int.natAbs_eq_zero.mp hzero
      decide
    · rw [intText]
      split
      · rw [isNumber, run_cons]
        show ((run NumberState.step .minus _).any _) = true
        rw [run_toDigits (Or.inr rfl) _ hpos]
        rfl
      · rw [isNumber, run_toDigits (Or.inl rfl) _ hpos]
        rfl
  rw [isScalar, hnum, Bool.or_true]

def int (z : ℤ) : Json := .scalar ⟨intText z, isScalar_intText z⟩

/-! ## Writing -/

/-- `\uXXXX` -/
def escapeUnit (n : ℕ) : List Char :=
  ['\\', 'u', Hex.digit (n / 4096 % 16), Hex.digit (n / 256 % 16), Hex.digit (n / 16 % 16),
    Hex.digit (n % 16)]

/-- `py_encode_basestring_ascii`, for one character. -/
def escape (c : Char) : List Char :=
  if c = '"' then ['\\', '"']
  else if c = '\\' then ['\\', '\\']
  else if c = '\n' then ['\\', 'n']
  else if c = '\r' then ['\\', 'r']
  else if c = '\t' then ['\\', 't']
  else if c = '\x0c' then ['\\', 'f']
  else if c = '\x08' then ['\\', 'b']
  else if 0x20 ≤ c.toNat ∧ c.toNat ≤ 0x7e then [c]
  else if c.toNat < 0x10000 then escapeUnit c.toNat
  else
    escapeUnit (0xd800 + (c.toNat - 0x10000) / 1024) ++
      escapeUnit (0xdc00 + (c.toNat - 0x10000) % 1024)

def quote (s : List Char) : List Char := '"' :: (s.flatMap escape ++ ['"'])

/-- A new line, indented for the level `n`. -/
def newline (n : ℕ) : List Char := '\n' :: List.replicate (2 * n) ' '

/-- The entries after the first, each on a line of its own, up to the closing bracket. -/
def entries (n : ℕ) (close : Char) : List (List Char) → List Char
  | [] => newline n ++ [close]
  | e :: es => ',' :: (newline (n + 1) ++ e ++ entries n close es)

/-- A container at level `n`. -/
def block (n : ℕ) (opening close : Char) : List (List Char) → List Char
  | [] => [opening, close]
  | e :: es => opening :: (newline (n + 1) ++ e ++ entries n close es)

mutual

/-- The text of a value at level `n`. -/
def write (n : ℕ) : Json → List Char
  | .scalar t => t.val
  | .str s => quote s
  | .arr items => block n '[' ']' (writeItems (n + 1) items)
  | .obj fields => block n '\x7b' '\x7d' (writeFields (n + 1) fields)

def writeItems (n : ℕ) : List Json → List (List Char)
  | [] => []
  | v :: vs => write n v :: writeItems n vs

def writeFields (n : ℕ) : List (List Char × Json) → List (List Char)
  | [] => []
  | f :: fs => writeField n f :: writeFields n fs

def writeField (n : ℕ) : List Char × Json → List Char
  | (key, v) => quote key ++ ([':', ' '] ++ write n v)

end

/-- `json.dumps(v, indent=2)` -/
def dumps (v : Json) : List Char := write 0 v

/-! ## Reading -/

/-- A container that is not closed yet; the last entry stands first. -/
inductive Frame where
  | arr (items : List Json)
  | obj (fields : List (List Char × Json)) (key : List Char)

/-- Where the reader stands inside a text between quotes. -/
inductive Escape where
  | none
  | slash
  /-- in the digits of a `\u`, after a high surrogate or not -/
  | unit (high : Option ℕ) (count : ℕ) (value : ℕ)
  | low (high : ℕ)
  | lowSlash (high : ℕ)

/-- What a text between quotes is for. -/
inductive Use where
  | value
  | key (fields : List (List Char × Json))

inductive Reader where
  /-- a value is due -/
  | value (stack : List Frame)
  /-- after `[` -/
  | items (stack : List Frame)
  /-- after an opening brace -/
  | fields (stack : List Frame)
  /-- after the comma between two fields -/
  | key (stack : List Frame) (fields : List (List Char × Json))
  | colon (stack : List Frame) (fields : List (List Char × Json)) (key : List Char)
  | text (stack : List Frame) (use : Use) (escape : Escape) (chars : List Char)
  | token (stack : List Frame) (chars : List Char)
  /-- a value has been read -/
  | after (stack : List Frame) (v : Json)

def isBlank (c : Char) : Bool := c = ' ' || c = '\t' || c = '\n' || c = '\r'

/-- The value of four digits; half a pair waits for the other half. -/
def finishUnit (high : Option ℕ) (value : ℕ) (chars : List Char) : Option (Escape × List Char) :=
  match high with
  | some h =>
      if 0xdc00 ≤ value ∧ value < 0xe000 then
        some (.none, Char.ofNat (0x10000 + (h - 0xd800) * 1024 + (value - 0xdc00)) :: chars)
      else none
  | none =>
      if 0xd800 ≤ value ∧ value < 0xdc00 then some (.low value, chars)
      else if 0xdc00 ≤ value ∧ value < 0xe000 then none
      else some (.none, Char.ofNat value :: chars)

/-- A character after a backslash. -/
def escaped (c : Char) (chars : List Char) : Option (Escape × List Char) :=
  if c = '"' ∨ c = '\\' ∨ c = '/' then some (.none, c :: chars)
  else if c = 'n' then some (.none, '\n' :: chars)
  else if c = 'r' then some (.none, '\r' :: chars)
  else if c = 't' then some (.none, '\t' :: chars)
  else if c = 'f' then some (.none, '\x0c' :: chars)
  else if c = 'b' then some (.none, '\x08' :: chars)
  else if c = 'u' then some (.unit none 0 0, chars)
  else none

/-- A character of a text, other than the quote that ends it. -/
def readChar : Escape → List Char → Char → Option (Escape × List Char)
  | .none, chars, c =>
      if c = '\\' then some (.slash, chars)
      else if c.toNat < 0x20 then none
      else some (.none, c :: chars)
  | .slash, chars, c => escaped c chars
  | .unit high count value, chars, c =>
      (Hex.digitVal c).bind fun d =>
        if count = 3 then finishUnit high (16 * value + d) chars
        else some (.unit high (count + 1) (16 * value + d), chars)
  | .low high, chars, c => if c = '\\' then some (.lowSlash high, chars) else none
  | .lowSlash high, chars, c => if c = 'u' then some (.unit (some high) 0 0, chars) else none

/-- The quote that ends a text. -/
def closeText (stack : List Frame) (chars : List Char) : Use → Reader
  | .value => .after stack (.str chars.reverse)
  | .key fields => .colon stack fields chars.reverse

/-- The first character of a value. -/
def startValue (stack : List Frame) (c : Char) : Option Reader :=
  if isBlank c then some (.value stack)
  else if c = '"' then some (.text stack .value .none [])
  else if c = '[' then some (.items stack)
  else if c = '\x7b' then some (.fields stack)
  else if isTokenChar c then some (.token stack [c])
  else none

/-- A character after a complete value. -/
def goOn (stack : List Frame) (v : Json) (c : Char) : Option Reader :=
  if isBlank c then some (.after stack v)
  else
    match stack with
    | [] => none
    | .arr items :: stack =>
        if c = ',' then some (.value (.arr (v :: items) :: stack))
        else if c = ']' then some (.after stack (.arr (v :: items).reverse))
        else none
    | .obj fields key :: stack =>
        if c = ',' then some (.key stack ((key, v) :: fields))
        else if c = '\x7d' then some (.after stack (.obj ((key, v) :: fields).reverse))
        else none

/-- The scalar of a token whose characters are given last first. -/
def scalarOf (chars : List Char) : Option Json :=
  if h : isScalar chars.reverse = true then some (.scalar ⟨chars.reverse, h⟩) else none

def feed : Reader → Char → Option Reader
  | .value stack, c => startValue stack c
  | .items stack, c =>
      if isBlank c then some (.items stack)
      else if c = ']' then some (.after stack (.arr []))
      else startValue (.arr [] :: stack) c
  | .fields stack, c =>
      if isBlank c then some (.fields stack)
      else if c = '\x7d' then some (.after stack (.obj []))
      else if c = '"' then some (.text stack (.key []) .none [])
      else none
  | .key stack fields, c =>
      if isBlank c then some (.key stack fields)
      else if c = '"' then some (.text stack (.key fields) .none [])
      else none
  | .colon stack fields key, c =>
      if isBlank c then some (.colon stack fields key)
      else if c = ':' then some (.value (.obj fields key :: stack))
      else none
  | .text stack use .none chars, '"' => some (closeText stack chars use)
  | .text stack use escape chars, c =>
      (readChar escape chars c).map fun p => .text stack use p.1 p.2
  | .token stack chars, c =>
      if isTokenChar c then some (.token stack (c :: chars))
      else (scalarOf chars).bind fun v => goOn stack v c
  | .after stack v, c => goOn stack v c

/-- The end of the input. -/
def finish : Reader → Option Json
  | .after [] v => some v
  | .token [] chars => scalarOf chars
  | _ => none

/-- `json.loads` -/
def loads (t : List Char) : Option Json := (run feed (.value []) t).bind finish

/-! ## Blanks and brackets -/

section Reading

variable {stack : List Frame} {use : Use} {chars rest : List Char}

/-- A state that blanks leave as it is passes over them. -/
theorem run_blanks {r : Reader} (hr : ∀ c, isBlank c = true → feed r c = some r) {bs : List Char}
    (hbs : ∀ c ∈ bs, isBlank c = true) (rest : List Char) :
    run feed r (bs ++ rest) = run feed r rest := by
  induction bs with
  | nil => rfl
  | cons b bs ih =>
      rw [List.cons_append, run_cons, hr b (hbs b List.mem_cons_self)]
      exact ih fun c hc => hbs c (List.mem_cons_of_mem b hc)

theorem isBlank_newline (n : ℕ) : ∀ c ∈ newline n, isBlank c = true := by
  intro c hc
  rcases List.mem_cons.mp hc with rfl | hc
  · decide
  · obtain rfl := List.eq_of_mem_replicate hc
    decide

theorem run_newline_value (n : ℕ) :
    run feed (.value stack) (newline n ++ rest) = run feed (.value stack) rest :=
  run_blanks (fun c hc => by simp [feed, startValue, hc]) (isBlank_newline n) rest

theorem run_newline_items (n : ℕ) :
    run feed (.items stack) (newline n ++ rest) = run feed (.items stack) rest :=
  run_blanks (fun c hc => by simp [feed, hc]) (isBlank_newline n) rest

theorem run_newline_fields (n : ℕ) :
    run feed (.fields stack) (newline n ++ rest) = run feed (.fields stack) rest :=
  run_blanks (fun c hc => by simp [feed, hc]) (isBlank_newline n) rest

theorem run_newline_key {fields : List (List Char × Json)} (n : ℕ) :
    run feed (.key stack fields) (newline n ++ rest) = run feed (.key stack fields) rest :=
  run_blanks (fun c hc => by simp [feed, hc]) (isBlank_newline n) rest

theorem run_newline_after {v : Json} (n : ℕ) :
    run feed (.after stack v) (newline n ++ rest) = run feed (.after stack v) rest :=
  run_blanks (fun c hc => by simp [feed, goOn, hc]) (isBlank_newline n) rest

/-- A character of a scalar is none of those that mean something between values. -/
theorem startValue_of_isTokenChar (stack : List Frame) {c : Char} (h : isTokenChar c = true) :
    startValue stack c = some (.token stack [c]) ∧ isBlank c = false ∧ c ≠ ']' := by
  have hne : ∀ d, isTokenChar d = false → c ≠ d := by
    rintro d hd rfl
    rw [h] at hd
    cases hd
  have hblank : isBlank c = false := by
    simp [isBlank, hne ' ' (by decide), hne '\t' (by decide), hne '\n' (by decide), hne '\r' (by decide)]
  refine ⟨?_, hblank, hne ']' (by decide)⟩
  simp [startValue, hblank, h, hne '"' (by decide), hne '[' (by decide), hne '\x7b' (by decide)]

/-! ## A text between quotes -/

theorem run_text_cons {escape : Escape} {c : Char} (h : escape ≠ .none ∨ c ≠ '"') :
    run feed (.text stack use escape chars) (c :: rest) =
      (readChar escape chars c).bind fun p => run feed (.text stack use p.1 p.2) rest := by
  have hfeed : feed (.text stack use escape chars) c =
      (readChar escape chars c).map fun p => .text stack use p.1 p.2 := by
    unfold feed
    split <;> simp_all
  rw [run_cons, hfeed, Option.bind_map]
  rfl

/-- The four digits of a `\u`. -/
theorem run_unit {high : Option ℕ} {n : ℕ} (hn : n < 0x10000) :
    run feed (.text stack use (.unit high 0 0) chars)
        (Hex.digit (n / 4096 % 16) :: Hex.digit (n / 256 % 16) :: Hex.digit (n / 16 % 16) ::
          Hex.digit (n % 16) :: rest) =
      (finishUnit high n chars).bind fun p => run feed (.text stack use p.1 p.2) rest := by
  have hdigit : ∀ m, Hex.digitVal (Hex.digit (m % 16)) = some (m % 16) := fun m =>
    Hex.digitVal_digit (Nat.mod_lt m (by decide))
  have hvalue : 16 * (16 * (16 * (16 * 0 + n / 4096 % 16) + n / 256 % 16) + n / 16 % 16) + n % 16 = n := by
    omega
  have hunit : ∀ count value c, Escape.unit high count value ≠ .none ∨ c ≠ '"' := fun _ _ _ =>
    Or.inl (by simp)
  rw [run_text_cons (hunit _ _ _), readChar, hdigit, Option.bind_some, if_neg (by decide),
    Option.bind_some, run_text_cons (hunit _ _ _), readChar, hdigit, Option.bind_some,
    if_neg (by decide), Option.bind_some, run_text_cons (hunit _ _ _), readChar, hdigit,
    Option.bind_some, if_neg (by decide), Option.bind_some, run_text_cons (hunit _ _ _), readChar,
    hdigit, Option.bind_some, if_pos rfl, hvalue]

/-- A backslash and a letter. -/
theorem run_escaped {c : Char} :
    run feed (.text stack use .none chars) ('\\' :: c :: rest) =
      (escaped c chars).bind fun p => run feed (.text stack use p.1 p.2) rest := by
  rw [run_text_cons (Or.inr (by decide)), readChar, if_pos rfl, Option.bind_some,
    run_text_cons (Or.inl (by simp)), readChar]

theorem run_escapeUnit {n : ℕ} (hn : n < 0x10000) :
    run feed (.text stack use .none chars) (escapeUnit n ++ rest) =
      (finishUnit none n chars).bind fun p => run feed (.text stack use p.1 p.2) rest := by
  show run feed _ ('\\' :: 'u' :: _) = _
  rw [run_escaped]
  exact run_unit hn

/-- No character is among the surrogates. -/
theorem toNat_cases (c : Char) : c.toNat < 0xd800 ∨ 0xdfff < c.toNat ∧ c.toNat < 0x110000 := c.valid

/-- A character above `0xffff` is read back from its surrogates. -/
theorem run_surrogates {c : Char} (hc : ¬ c.toNat < 0x10000) :
    run feed (.text stack use .none chars) (escapeUnit (0xd800 + (c.toNat - 0x10000) / 1024) ++
        escapeUnit (0xdc00 + (c.toNat - 0x10000) % 1024) ++ rest) =
      run feed (.text stack use .none (c :: chars)) rest := by
  have hlast := toNat_cases c
  have hhigh : 0xd800 ≤ 0xd800 + (c.toNat - 0x10000) / 1024 ∧
      0xd800 + (c.toNat - 0x10000) / 1024 < 0xdc00 := by
    omega
  have hlow : 0xdc00 ≤ 0xdc00 + (c.toNat - 0x10000) % 1024 ∧
      0xdc00 + (c.toNat - 0x10000) % 1024 < 0xe000 := by
    omega
  have hpair : 0x10000 + (0xd800 + (c.toNat - 0x10000) / 1024 - 0xd800) * 1024 +
      (0xdc00 + (c.toNat - 0x10000) % 1024 - 0xdc00) = c.toNat := by
    omega
  rw [List.append_assoc, run_escapeUnit (by omega), finishUnit, if_pos hhigh, Option.bind_some]
  show run feed _ ('\\' :: 'u' :: _) = _
  rw [run_text_cons (Or.inl (by simp)), readChar, if_pos rfl, Option.bind_some,
    run_text_cons (Or.inl (by simp)), readChar, if_pos rfl, Option.bind_some]
  refine (run_unit (by omega)).trans ?_
  rw [finishUnit, if_pos hlow, Option.bind_some, hpair, Char.ofNat_toNat]
  rfl

/-- A character is read back from its escape. -/
theorem run_escape (c : Char) :
    run feed (.text stack use .none chars) (escape c ++ rest) =
      run feed (.text stack use .none (c :: chars)) rest := by
  unfold escape
  by_cases hquote : c = '"'
  · rw [if_pos hquote, hquote]
    exact run_escaped
  by_cases hbackslash : c = '\\'
  · rw [if_neg hquote, if_pos hbackslash, hbackslash]
    exact run_escaped
  rw [if_neg hquote, if_neg hbackslash]
  split
  · next h =>
      rw [h]
      exact run_escaped
  split
  · next h =>
      rw [h]
      exact run_escaped
  split
  · next h =>
      rw [h]
      exact run_escaped
  split
  · next h =>
      rw [h]
      exact run_escaped
  split
  · next h =>
      rw [h]
      exact run_escaped
  split
  · show run feed _ (c :: rest) = _
    rw [run_text_cons (Or.inr hquote), readChar, if_neg hbackslash, if_neg (by omega), Option.bind_some]
  split
  · next hunit =>
      have hvalid := toNat_cases c
      rw [run_escapeUnit hunit, finishUnit, if_neg (by omega), if_neg (by omega), Option.bind_some,
        Char.ofNat_toNat]
  · next hlarge => exact run_surrogates hlarge

theorem run_escapes (s : List Char) :
    run feed (.text stack use .none chars) (s.flatMap escape ++ rest) =
      run feed (.text stack use .none (s.reverse ++ chars)) rest := by
  induction s generalizing chars with
  | nil => rfl
  | cons c s ih =>
      rw [List.flatMap_cons, List.append_assoc, run_escape, ih, List.reverse_cons, List.append_assoc]
      rfl

/-- From the opening quote to the closing one. -/
theorem run_quote {r : Reader} (s : List Char) (hr : feed r '"' = some (.text stack use .none [])) :
    run feed r (quote s ++ rest) = run feed (closeText stack s.reverse use) rest := by
  rw [quote, List.cons_append, run_cons, hr, List.append_assoc]
  show run feed _ (_ ++ '"' :: rest) = _
  rw [run_escapes, List.append_nil]
  rfl

/-! ## Scalars -/

theorem run_token {t : List Char} (ht : ∀ c ∈ t, isTokenChar c = true) :
    run feed (.token stack chars) (t ++ rest) = run feed (.token stack (t.reverse ++ chars)) rest := by
  induction t generalizing chars with
  | nil => rfl
  | cons c t ih =>
      have hfeed : feed (.token stack chars) c = some (.token stack (c :: chars)) := by
        rw [feed, if_pos (ht c List.mem_cons_self)]
      rw [List.cons_append, run_cons, hfeed, Option.bind_some,
        ih fun d hd => ht d (List.mem_cons_of_mem c hd), List.reverse_cons, List.append_assoc]
      rfl

theorem run_scalar (stack : List Frame) (t : Scalar) (rest : List Char) :
    run feed (.value stack) (t.val ++ rest) = run feed (.token stack t.val.reverse) rest := by
  obtain ⟨t, ht⟩ := t
  have hchars := isTokenChar_of_isScalar ht
  cases t with
  | nil => exact absurd rfl (ne_nil_of_isScalar ht)
  | cons c t =>
      have hstart : feed (.value stack) c = some (.token stack [c]) :=
        (startValue_of_isTokenChar stack (hchars c List.mem_cons_self)).1
      show run feed _ (c :: (t ++ rest)) = _
      rw [run_cons, hstart, Option.bind_some,
        run_token fun d hd => hchars d (List.mem_cons_of_mem c hd), List.reverse_cons]

theorem scalarOf_reverse (t : Scalar) : scalarOf t.val.reverse = some (.scalar t) := by
  have ht : isScalar t.val.reverse.reverse = true := by
    rw [List.reverse_reverse]
    exact t.property
  rw [scalarOf, dif_pos ht]
  congr 3
  exact List.reverse_reverse _

/-! ## Containers -/

/-- A text that can follow the value: a scalar has no end of its own. -/
def CanFollow (rest : List Char) : Json → Prop
  | .scalar _ => ∃ c rest', rest = c :: rest' ∧ isTokenChar c = false
  | _ => True

/-- What follows an entry can follow any value. -/
theorem canFollow_entries (n : ℕ) {close : Char} (es : List (List Char)) (v : Json) :
    CanFollow (entries n close es ++ rest) v := by
  cases v with
  | scalar t =>
      cases es with
      | nil => exact ⟨'\n', _, rfl, by decide⟩
      | cons e es => exact ⟨',', _, rfl, by decide⟩
  | str s => trivial
  | arr items => trivial
  | obj fields => trivial

/-- After `[`, a text that is neither blank nor a bracket starts the first item. -/
theorem run_items_eq {c : Char} {cs : List Char} (hblank : isBlank c = false) (hc : c ≠ ']') :
    run feed (.items stack) (c :: cs) = run feed (.value (.arr [] :: stack)) (c :: cs) := by
  have hfeed : feed (.items stack) c = feed (.value (.arr [] :: stack)) c := by
    simp [feed, hblank, hc]
  rw [run_cons, run_cons, hfeed]

theorem exists_write_cons (n : ℕ) (v : Json) :
    ∃ c cs, write n v = c :: cs ∧ isBlank c = false ∧ c ≠ ']' := by
  cases v with
  | scalar t =>
      obtain ⟨t, ht⟩ := t
      cases t with
      | nil => exact absurd rfl (ne_nil_of_isScalar ht)
      | cons c t =>
          exact ⟨c, t, rfl, (startValue_of_isTokenChar [] (isTokenChar_of_isScalar ht c List.mem_cons_self)).2⟩
  | str s => exact ⟨'"', _, rfl, by decide, by decide⟩
  | arr items => cases items <;> exact ⟨'[', _, rfl, by decide, by decide⟩
  | obj fields => cases fields <;> exact ⟨'\x7b', _, rfl, by decide, by decide⟩

mutual

/-- **Reading back.** From where a value is due, its text leads to where it has been read. -/
theorem run_write (v : Json) (n : ℕ) (stack : List Frame) (rest : List Char) (h : CanFollow rest v) :
    run feed (.value stack) (write n v ++ rest) = run feed (.after stack v) rest := by
  match v with
  | .scalar t =>
      obtain ⟨c, rest', rfl, hc⟩ := h
      rw [write, run_scalar, run_cons, run_cons, feed, if_neg (by rw [hc]; decide), scalarOf_reverse,
        Option.bind_some]
      rfl
  | .str s =>
      rw [write, run_quote s rfl, closeText, List.reverse_reverse]
  | .arr [] => rfl
  | .arr (v :: vs) =>
      obtain ⟨c, cs, hwrite, hblank, hc⟩ := exists_write_cons (n + 1) v
      have hitem := run_write v (n + 1) (.arr [] :: stack)
        (entries n ']' (writeItems (n + 1) vs) ++ rest) (canFollow_entries n _ v)
      rw [write, writeItems, block, List.cons_append, run_cons]
      show run feed (.items stack) _ = _
      rw [List.append_assoc, List.append_assoc, run_newline_items, hwrite, List.cons_append,
        run_items_eq hblank hc, ← List.cons_append, ← hwrite, hitem, run_writeItems vs]
      rfl
  | .obj [] => rfl
  | .obj (f :: fs) =>
      have hfield := run_writeField f (n + 1) stack [] (.fields stack)
        (entries n '\x7d' (writeFields (n + 1) fs) ++ rest) rfl (canFollow_entries n _ f.2)
      rw [write, writeFields, block, List.cons_append, run_cons]
      show run feed (.fields stack) _ = _
      rw [List.append_assoc, List.append_assoc, run_newline_fields, hfield, run_writeFields fs]
      rfl

/-- From the end of one item to the end of the array. -/
theorem run_writeItems (vs : List Json) (n : ℕ) (stack : List Frame) (items : List Json) (v : Json)
    (rest : List Char) :
    run feed (.after (.arr items :: stack) v) (entries n ']' (writeItems (n + 1) vs) ++ rest) =
      run feed (.after stack (.arr (items.reverse ++ v :: vs))) rest := by
  match vs with
  | [] =>
      rw [writeItems, entries, List.append_assoc, run_newline_after, List.singleton_append, run_cons]
      show run feed (.after stack (.arr (v :: items).reverse)) rest = _
      rw [List.reverse_cons]
  | w :: vs =>
      have hitem := run_write w (n + 1) (.arr (v :: items) :: stack)
        (entries n ']' (writeItems (n + 1) vs) ++ rest) (canFollow_entries n _ w)
      rw [writeItems, entries, List.cons_append, run_cons]
      show run feed (.value (.arr (v :: items) :: stack)) _ = _
      rw [List.append_assoc, List.append_assoc, run_newline_value, hitem, run_writeItems vs,
        List.reverse_cons, List.append_assoc]
      rfl

theorem run_writeFields (fs : List (List Char × Json)) (n : ℕ) (stack : List Frame)
    (fields : List (List Char × Json)) (f : List Char × Json) (rest : List Char) :
    run feed (.after (.obj fields f.1 :: stack) f.2)
        (entries n '\x7d' (writeFields (n + 1) fs) ++ rest) =
      run feed (.after stack (.obj (fields.reverse ++ f :: fs))) rest := by
  match fs with
  | [] =>
      rw [writeFields, entries, List.append_assoc, run_newline_after, List.singleton_append, run_cons]
      show run feed (.after stack (.obj (f :: fields).reverse)) rest = _
      rw [List.reverse_cons]
  | g :: fs =>
      have hfield := run_writeField g (n + 1) stack (f :: fields) (.key stack (f :: fields))
        (entries n '\x7d' (writeFields (n + 1) fs) ++ rest) rfl (canFollow_entries n _ g.2)
      rw [writeFields, entries, List.cons_append, run_cons]
      show run feed (.key stack (f :: fields)) _ = _
      rw [List.append_assoc, List.append_assoc, run_newline_key, hfield, run_writeFields fs,
        List.reverse_cons, List.append_assoc]
      rfl

/-- A key, a colon and a value, where a key is due. -/
theorem run_writeField (f : List Char × Json) (n : ℕ) (stack : List Frame)
    (fields : List (List Char × Json)) (r : Reader) (rest : List Char)
    (hr : feed r '"' = some (.text stack (.key fields) .none [])) (h : CanFollow rest f.2) :
    run feed r (writeField n f ++ rest) = run feed (.after (.obj fields f.1 :: stack) f.2) rest := by
  match f with
  | (key, v) =>
      rw [writeField, List.append_assoc, run_quote key hr, closeText, List.reverse_reverse,
        List.append_assoc]
      show run feed (.value (.obj fields key :: stack)) (write n v ++ rest) = _
      exact run_write v n _ rest h

end

end Reading

/-! ## Whole documents -/

theorem run_dumps {v : Json} (hv : CanFollow [] v) :
    run feed (.value []) (dumps v) = some (.after [] v) := by
  have hrun := run_write v 0 [] [] hv
  rwa [List.append_nil] at hrun

/-- **A value is read back from its text.** -/
theorem loads_dumps (v : Json) : loads (dumps v) = some v := by
  cases v with
  | scalar t =>
      have hrun := run_scalar [] t []
      rw [List.append_nil] at hrun
      show (run feed _ t.val).bind _ = _
      rw [hrun]
      exact scalarOf_reverse t
  | str s =>
      rw [loads, run_dumps (v := .str s) trivial]
      rfl
  | arr items =>
      rw [loads, run_dumps (v := .arr items) trivial]
      rfl
  | obj fields =>
      rw [loads, run_dumps (v := .obj fields) trivial]
      rfl

example : dumps (.obj [("a".toList, .arr [int (-20), .str ['\n', '—']]), ("b".toList, null)]) =
    "\x7b\n  \"a\": [\n    -20,\n    \"\\n\\u2014\"\n  ],\n  \"b\": null\n\x7d".toList := by
  decide

theorem finish_eq_some {r : Reader} {v : Json} (h : finish r = some v) :
    r = .after [] v ∨ ∃ chars, r = .token [] chars := by
  unfold finish at h
  split at h
  · exact Or.inl (congrArg _ (Option.some.inj h))
  · exact Or.inr ⟨_, rfl⟩
  · cases h

/-- After a whole document there is nothing but blanks. -/
theorem run_after_nil {v : Json} {r : Reader} {t : List Char}
    (h : run feed (.after [] v) t = some r) : r = .after [] v ∧ ∀ c ∈ t, isBlank c = true := by
  induction t with
  | nil =>
      obtain rfl := Option.some.inj h
      exact ⟨rfl, fun c hc => nomatch hc⟩
  | cons c t ih =>
      obtain ⟨m, hm, hrest⟩ := run_cons_eq_some.mp h
      have hblank : isBlank c = true := by
        by_contra hc
        simp [feed, goOn, hc] at hm
      obtain rfl : m = .after [] v := by simpa [feed, goOn, hblank] using hm.symm
      obtain ⟨hr, hall⟩ := ih hrest
      exact ⟨hr, List.forall_mem_cons.mpr ⟨hblank, hall⟩⟩

/-- A document that starts with a scalar is a scalar. -/
theorem run_token_nil {chars : List Char} {r : Reader} {t : List Char}
    (h : run feed (.token [] chars) t = some r) :
    (∃ chars', r = .token [] chars') ∨ ∃ s, r = .after [] (.scalar s) := by
  induction t generalizing chars with
  | nil => exact Or.inl ⟨chars, (Option.some.inj h).symm⟩
  | cons c t ih =>
      obtain ⟨m, hm, hrest⟩ := run_cons_eq_some.mp h
      rw [feed] at hm
      split at hm
      · obtain rfl := Option.some.inj hm
        exact ih hrest
      · obtain ⟨v, hv, hgo⟩ := Option.bind_eq_some_iff.mp hm
        rw [scalarOf] at hv
        split at hv
        · obtain rfl := Option.some.inj hv
          exact Or.inr ⟨_, (run_after_nil (run_cons_eq_some.mpr ⟨m, hgo, hrest⟩)).1⟩
        · cases hv

theorem exists_entries_append (n : ℕ) (close : Char) (es : List (List Char)) :
    ∃ t, entries n close es = t ++ [close] := by
  induction es with
  | nil => exact ⟨newline n, rfl⟩
  | cons e es ih =>
      obtain ⟨t, ht⟩ := ih
      exact ⟨',' :: (newline (n + 1) ++ e ++ t), by
        rw [entries, ht, ← List.append_assoc, List.cons_append]⟩

/-- An object's text ends in its brace. -/
theorem exists_dumps_obj_append (fields : List (List Char × Json)) :
    ∃ t, dumps (.obj fields) = t ++ ['\x7d'] := by
  cases fields with
  | nil => exact ⟨['\x7b'], rfl⟩
  | cons f fs =>
      obtain ⟨t, ht⟩ := exists_entries_append 0 '\x7d' (writeFields 1 fs)
      exact ⟨'\x7b' :: (newline 1 ++ writeField 1 f ++ t), by
        rw [dumps, write, writeFields, block, ht, ← List.append_assoc, List.cons_append]⟩

/-- **A cut text is refused.** Whatever would have been read so far, the brace is still to come. -/
theorem loads_take {fields : List (List Char × Json)} {n : ℕ} (hn : n < (dumps (.obj fields)).length) :
    loads ((dumps (.obj fields)).take n) = none := by
  rw [Option.eq_none_iff_forall_not_mem]
  intro v hv
  obtain ⟨r, hcut, hfinish⟩ := Option.bind_eq_some_iff.mp hv
  have hrest : run feed r ((dumps (.obj fields)).drop n) = some (.after [] (.obj fields)) := by
    have hall := run_dumps (v := .obj fields) trivial
    rw [← List.take_append_drop n (dumps (.obj fields)), run_append, hcut] at hall
    exact hall
  rcases finish_eq_some hfinish with rfl | ⟨chars, rfl⟩
  · obtain ⟨-, hblank⟩ := run_after_nil hrest
    obtain ⟨t, ht⟩ := exists_dumps_obj_append fields
    have hlen : n ≤ t.length := by
      rw [ht, List.length_append, List.length_singleton] at hn
      omega
    have hbrace : '\x7d' ∈ (dumps (.obj fields)).drop n := by
      rw [ht, List.drop_append_of_le_length hlen]
      exact List.mem_append_right _ List.mem_cons_self
    exact absurd (hblank _ hbrace) (by decide)
  · rcases run_token_nil hrest with ⟨chars', htoken⟩ | ⟨s, hscalar⟩
    · cases htoken
    · cases hscalar

/-! ## Looking into a document -/

/-- `d.get(key)`; of two fields of one name the dictionary has the later. -/
def get (fields : List (List Char × Json)) (key : List Char) : Option Json :=
  (fields.reverse.find? fun f => f.1 = key).map Prod.snd

def toText : Json → Option (List Char)
  | .str s => some s
  | _ => none

def readInt : List Char → ℤ
  | '-' :: t => -(Nat.ofDigitChars 10 t 0 : ℕ)
  | t => (Nat.ofDigitChars 10 t 0 : ℕ)

theorem readInt_intText (z : ℤ) : readInt (intText z) = z := by
  have hdigits : Nat.ofDigitChars 10 (Nat.toDigits 10 z.natAbs) 0 = z.natAbs :=
    Nat.ofDigitChars_toDigits (by decide) (by decide)
  rw [intText]
  split
  · rw [readInt, hdigits]
    omega
  · have hminus : ∀ t, Nat.toDigits 10 z.natAbs ≠ '-' :: t := by
      intro t ht
      have hmem : '-' ∈ Nat.toDigits 10 z.natAbs := ht ▸ List.mem_cons_self
      exact absurd (Nat.isDigit_of_mem_toDigits (by decide) (by decide) hmem) (by decide)
    rw [readInt]
    · rw [hdigits]
      omega
    · exact hminus

theorem intText_injective {z z' : ℤ} (h : intText z = intText z') : z = z' := by
  rw [← readInt_intText z, h, readInt_intText]

/-- An integer, where the scalar is the text of one. -/
def toInt : Json → Option ℤ
  | .scalar t => if intText (readInt t.val) = t.val then some (readInt t.val) else none
  | _ => none

theorem toInt_int (z : ℤ) : toInt (int z) = some z := by
  rw [int, toInt, readInt_intText, if_pos rfl]

end Json

end PqcMigration.Lib
