/-
# PqcMigration.Benchmarks.Names — what the two parsers of the micro-benchmarks make of a name.

`parse_results.py` and `cmd/run_benchmarks.go` both read the operation, the scheme, the size of the
message, the size of a batch and the number of goroutines off the name of a benchmark, by the same chain
of tests for texts the name begins with or contains. They part in three places: only Go knows the size 256;
where the third part of a name is no integer Python leaves everything as it was and Go goes on with 0; and
Go's integers end at 2^63 - 1.

A name here is an operation, a scheme and perhaps a parameter, with underscores between them; the parameter
is an integer or a size. `parseResultName_eq_iff` says for which names the two agree.
-/
import Mathlib.Data.Nat.Digits.Defs
import PqcMigration.Lib.Lines
import PqcMigration.Lib.Scan

namespace PqcMigration.Benchmarks

open Lib

abbrev Text := List Char

/-! ## Names -/

inductive Operation where
  | keyGen
  | sign
  | verify
  | batchVerify
  | concurrentSign
  | throughput
  deriving DecidableEq

def Operation.text : Operation → Text
  | .keyGen => "KeyGen".toList
  | .sign => "Sign".toList
  | .verify => "Verify".toList
  | .batchVerify => "BatchVerify".toList
  | .concurrentSign => "ConcurrentSign".toList
  | .throughput => "Throughput".toList

inductive Scheme where
  | secp256k1
  | mldsa65
  deriving DecidableEq

def Scheme.text : Scheme → Text
  | .secp256k1 => "Secp256k1".toList
  | .mldsa65 => "MLDSA65".toList

/-- How results name the scheme. -/
def Scheme.label : Scheme → Text
  | .secp256k1 => "secp256k1".toList
  | .mldsa65 => "mldsa65".toList

/-- A decimal numeral; zeros may lead. -/
structure Digits where
  text : Text
  nonempty : text ≠ []
  isDigit : ∀ c ∈ text, c.isDigit = true

/-- The value of a text of digits. -/
def valueOf (ds : Text) : ℕ := Nat.ofDigitChars 10 ds 0

def Digits.value (d : Digits) : ℕ := valueOf d.text

inductive SizeUnit where
  | b
  | kb
  | mb
  deriving DecidableEq

def SizeUnit.text : SizeUnit → Text
  | .b => "B".toList
  | .kb => "KB".toList
  | .mb => "MB".toList

inductive Param where
  | int (d : Digits)
  | size (d : Digits) (unit : SizeUnit)

def Param.text : Param → Text
  | .int d => d.text
  | .size d unit => d.text ++ unit.text

structure Name where
  operation : Operation
  scheme : Scheme
  param : Option Param

/-- `Operation_Scheme_Parameter` -/
def Name.parts (n : Name) : List Text :=
  n.operation.text :: n.scheme.text :: (n.param.map Param.text).toList

def Name.text (n : Name) : Text := List.intercalate ['_'] n.parts

/-! ## The parsers -/

/-- What is read off a name. A batch size or number of goroutines that is 0 is left out of the results. -/
structure Parsed where
  operation : Text
  scheme : Text
  msgSizeBytes : ℕ
  batchSize : ℕ
  goroutines : ℕ
  deriving DecidableEq

/-- `name.startswith('KeyGen_')` and the like. -/
def startsWith (o : Operation) (name : Text) : Bool := List.isPrefixOf (o.text ++ ['_']) name

/-- `'_100B' in name` and the like. -/
def contains (part name : Text) : Bool := decide (part <:+: name)

/-- "Determine operation" -/
def operationOf (name : Text) : Text :=
  if startsWith .keyGen name then Operation.keyGen.text
  else if startsWith .sign name then Operation.sign.text
  else if startsWith .verify name then Operation.verify.text
  else if startsWith .batchVerify name then Operation.batchVerify.text
  else if startsWith .concurrentSign name then Operation.concurrentSign.text
  else if startsWith .throughput name then Operation.throughput.text
  else []

/-- "Determine scheme" -/
def schemeOf (name : Text) : Text :=
  if contains Scheme.secp256k1.text name then Scheme.secp256k1.label
  else if contains Scheme.mldsa65.text name then Scheme.mldsa65.label
  else []

/-- "Parse message size", as far as the two are the same; `other` is what comes after that. -/
def sizeOf (other : ℕ) (name : Text) : ℕ :=
  if contains "_100B".toList name then 100
  else if contains "_1KB".toList name then 1024
  else if contains "_10KB".toList name then 10240
  else if contains "_100KB".toList name then 102400
  else other

/-- A text of digits. -/
def isNumeral (s : Text) : Bool := !s.isEmpty && s.all Char.isDigit

/-- `int(s)`, of a text of letters and digits; `none` is a `ValueError`. -/
def pyInt (s : Text) : Option ℕ := if isNumeral s then some (valueOf s) else none

/-- `n, _ := strconv.Atoi(s)`: 0 if `s` is no numeral, the greatest integer if it is too large. -/
def atoi (s : Text) : ℕ := if isNumeral s then min (valueOf s) (2 ^ 63 - 1) else 0

namespace Python

/-- `parse_result_name` -/
def parseResultName (name : Text) : Parsed :=
  let parts := name.splitOn '_'
  let result : Parsed := ⟨operationOf name, schemeOf name, sizeOf 0 name, 0, 0⟩
  let result :=
    if startsWith .batchVerify name then
      match parts[2]?.bind pyInt with
      | some n => { result with batchSize := n, msgSizeBytes := 100 }
      | none => result
    else result
  if startsWith .concurrentSign name || startsWith .throughput name then
    match parts[2]?.bind pyInt with
    | some n =>
        { result with
          goroutines := n
          msgSizeBytes :=
            if result.msgSizeBytes = 0 then if startsWith .concurrentSign name then 1024 else 256
            else result.msgSizeBytes }
    | none => result
  else result

end Python

namespace Go

/-- `parseResultName` -/
def parseResultName (name : Text) : Parsed :=
  let parts := name.splitOn '_'
  let size := sizeOf (if contains "_256".toList name then 256 else 0) name
  let result : Parsed := ⟨operationOf name, schemeOf name, size, 0, 0⟩
  let result :=
    if startsWith .batchVerify name then
      match parts[2]? with
      | some part => { result with batchSize := atoi part, msgSizeBytes := 100 }
      | none => result
    else result
  if startsWith .concurrentSign name || startsWith .throughput name then
    match parts[2]? with
    | some part =>
        { result with
          goroutines := atoi part
          msgSizeBytes :=
            if result.msgSizeBytes = 0 then if startsWith .throughput name then 256 else 1024
            else result.msgSizeBytes }
    | none => result
  else result

end Go

/-! ## Where a parameter is read alike -/

/-- The sizes both know. -/
def Listed (size : Text) : Prop :=
  size = "100B".toList ∨ size = "1KB".toList ∨ size = "10KB".toList ∨ size = "100KB".toList

/-- The parameter is one that Go takes for the size 256. -/
def Param.Begins256 (p : Param) : Prop := "256".toList <+: p.text

instance (p : Param) : Decidable p.Begins256 := inferInstanceAs (Decidable (_ <+: _))

/-- An integer within Go's range, or a size that satisfies `P`. -/
def Param.WithinOr (P : Text → Prop) : Param → Prop
  | .int d => d.value < 2 ^ 63
  | .size d unit => P (d.text ++ unit.text)

def Param.ReadAlike (p : Param) : Operation → Prop
  | .keyGen | .sign | .verify => ¬ p.Begins256
  | .batchVerify => p.WithinOr fun size => size = "100B".toList
  | .concurrentSign => p.WithinOr Listed ∧ ¬ p.Begins256
  | .throughput => p.WithinOr Listed

/-- The two parsers make the same of the name. -/
def Name.ReadAlike (n : Name) : Prop := ∀ p, n.param = some p → p.ReadAlike n.operation

/-! ## The parts of a name -/

section Parts

variable {n : Name} {p : Param}

theorem SizeUnit.not_isDigit {unit : SizeUnit} : ∀ c ∈ unit.text, c.isDigit = false := by
  apply forall_mem_of_all
  cases unit <;> decide

/-- Digits and capital letters. -/
theorem Param.isDigit_or_mem {c : Char} (hc : c ∈ p.text) : c.isDigit = true ∨ c ∈ "BKM".toList := by
  cases p with
  | int d => exact .inl (d.isDigit c hc)
  | size d unit =>
      rcases List.mem_append.mp hc with hdigit | hunit
      · exact .inl (d.isDigit c hdigit)
      · have hunits : ∀ unit : SizeUnit, ∀ c ∈ unit.text, c ∈ "BKM".toList := by
          intro unit
          apply forall_mem_of_all
          cases unit <;> decide
        exact .inr (hunits unit c hunit)

theorem Param.notMem_text {c : Char} (hdigit : c.isDigit = false) (hunit : c ∉ "BKM".toList) : c ∉ p.text := by
  intro hc
  rcases Param.isDigit_or_mem hc with h | h
  · simp [hdigit] at h
  · exact hunit h

theorem Operation.notMem_text (o : Operation) : '_' ∉ o.text ∧ 'k' ∉ o.text := by
  cases o <;> decide

theorem Scheme.notMem_text (s : Scheme) : '_' ∉ s.text := by
  cases s <;> decide

/-- The parameter with the underscore before it. -/
def Name.suffix (n : Name) : Text := (n.param.elim [] fun p => '_' :: p.text)

theorem Name.text_eq (n : Name) : n.text = n.operation.text ++ '_' :: (n.scheme.text ++ n.suffix) := by
  unfold Name.text Name.parts Name.suffix
  cases n.param with
  | none => simp [List.intercalate]
  | some p => simp [List.intercalate]

theorem Name.notMem_suffix (n : Name) {c : Char} (hdigit : c.isDigit = false)
    (hunit : c ∉ "_BKM".toList) : c ∉ n.suffix := by
  obtain ⟨hsep, hunit⟩ : c ≠ '_' ∧ c ∉ "BKM".toList := by simpa using hunit
  unfold Name.suffix
  cases n.param with
  | none => exact List.not_mem_nil
  | some p => exact List.not_mem_cons_of_ne_of_not_mem hsep (Param.notMem_text hdigit hunit)

theorem Name.splitOn_text (n : Name) : n.text.splitOn '_' = n.parts := by
  refine List.splitOn_intercalate '_' ?_ (by simp [Name.parts])
  intro part hpart
  unfold Name.parts at hpart
  rcases List.mem_cons.mp hpart with rfl | hpart
  · exact n.operation.notMem_text.1
  · rcases List.mem_cons.mp hpart with rfl | hpart
    · exact n.scheme.notMem_text
    · obtain ⟨p, -, rfl⟩ := Option.map_eq_some_iff.mp (Option.mem_toList.mp hpart)
      exact Param.notMem_text (by decide) (by decide)

theorem Name.third_part (n : Name) : (n.text.splitOn '_')[2]? = n.param.map Param.text := by
  rw [n.splitOn_text]
  unfold Name.parts
  cases n.param <;> rfl

theorem startsWith_text (o : Operation) (n : Name) : startsWith o n.text = decide (n.operation = o) := by
  rw [n.text_eq]
  cases o <;> cases n.operation <;> rfl

theorem operationOf_text (n : Name) : operationOf n.text = n.operation.text := by
  unfold operationOf
  simp only [startsWith_text]
  cases n.operation <;> rfl

theorem schemeOf_text (n : Name) : schemeOf n.text = n.scheme.label := by
  unfold schemeOf contains
  cases hs : n.scheme with
  | secp256k1 =>
      have hin : Scheme.secp256k1.text <:+: n.text := by
        rw [n.text_eq, hs]
        exact ⟨n.operation.text ++ ['_'], n.suffix, by simp⟩
      rw [decide_eq_true hin, if_pos rfl]
  | mldsa65 =>
      have hin : Scheme.mldsa65.text <:+: n.text := by
        rw [n.text_eq, hs]
        exact ⟨n.operation.text ++ ['_'], n.suffix, by simp⟩
      -- there is no small `k` in the rest of the name
      have hk : 'k' ∉ n.text := by
        rw [n.text_eq, hs]
        simp only [List.mem_append, List.mem_cons, not_or]
        exact ⟨n.operation.notMem_text.2, by decide, by decide, n.notMem_suffix (by decide) (by decide)⟩
      have hnot : ¬ Scheme.secp256k1.text <:+: n.text := fun h => hk (h.subset (by decide))
      rw [decide_eq_false hnot, if_neg (by simp), decide_eq_true hin, if_pos rfl]

/-- A text that begins with an underscore and a digit is found at the parameter. -/
theorem contains_text {d : Char} {x : Text} (hd : d.isDigit = true) :
    contains ('_' :: d :: x) n.text = decide (∃ p, n.param = some p ∧ d :: x <+: p.text) := by
  unfold contains
  rw [decide_eq_decide, n.text_eq, sep_infix_iff n.operation.notMem_text.1]
  -- a scheme begins with a letter
  have hscheme : ¬ d :: x <+: n.scheme.text ++ n.suffix := by
    rintro ⟨r, hr⟩
    cases hs : n.scheme with
    | secp256k1 =>
        rw [hs] at hr
        obtain rfl : d = 'S' := (List.cons.inj hr).1
        exact absurd hd (by decide)
    | mldsa65 =>
        rw [hs] at hr
        obtain rfl : d = 'M' := (List.cons.inj hr).1
        exact absurd hd (by decide)
  rw [or_iff_right hscheme]
  unfold Name.suffix
  cases n.param with
  | none =>
      rw [Option.elim_none, List.append_nil, iff_false_left (not_isInfix_sep n.scheme.notMem_text)]
      simp
  | some p =>
      have hsep : '_' ∉ p.text := Param.notMem_text (by decide) (by decide)
      rw [Option.elim_some, sep_infix_iff n.scheme.notMem_text, or_iff_left (not_isInfix_sep hsep)]
      simp

/-- The numeral of a size can be read off again. -/
theorem token_size (d : Digits) (unit : SizeUnit) (r : Text) :
    token Char.isDigit (d.text ++ (unit.text ++ r)) = some (d.text, unit.text ++ r) := by
  refine token_append d.nonempty d.isDigit ?_
  cases unit <;> simp [SizeUnit.text]

/-- A size is the beginning of a parameter only if it is the parameter. -/
theorem size_prefix_iff (d : Digits) (unit : SizeUnit) :
    (Param.size d unit).text <+: p.text ↔ p.text = (Param.size d unit).text := by
  constructor
  · rintro ⟨r, hr⟩
    cases p with
    | int e =>
        obtain ⟨c, hc⟩ : ∃ c, c ∈ unit.text := List.exists_mem_of_ne_nil _ (by cases unit <;> decide)
        have hmem : c ∈ (Param.int e).text := by
          rw [← hr]
          simp [Param.text, hc]
        have hdigit := e.isDigit c hmem
        rw [SizeUnit.not_isDigit c hc] at hdigit
        exact absurd hdigit (by simp)
    | size e u =>
        have htext : d.text ++ (unit.text ++ r) = e.text ++ (u.text ++ []) := by
          simpa [Param.text] using hr
        have htoken := token_size d unit r
        rw [htext, token_size, Option.some.injEq, Prod.mk.injEq, List.append_nil] at htoken
        obtain ⟨hnumeral, hunit⟩ := htoken
        -- no unit is a proper beginning of another
        have hsame : u = unit := by
          cases u <;> cases unit <;> simp [SizeUnit.text] at hunit ⊢
        rw [Param.text, Param.text, hnumeral, hsame]
  · intro h
    rw [h]

theorem contains_size (n : Name) (d : Digits) (unit : SizeUnit) :
    contains ('_' :: (d.text ++ unit.text)) n.text = n.param.any fun p => p.text = d.text ++ unit.text := by
  obtain ⟨c, x, hd⟩ := List.exists_cons_of_ne_nil d.nonempty
  have hc : c.isDigit = true := d.isDigit c (by simp [hd])
  have hsize : c :: (x ++ unit.text) = (Param.size d unit).text := by rw [Param.text, hd, List.cons_append]
  rw [hd, List.cons_append, contains_text hc, hsize]
  cases n.param with
  | none => simp
  | some p => simp [size_prefix_iff]

/-- What the chain of sizes gives for a parameter. -/
def tableSize (other : ℕ) (size : Text) : ℕ :=
  if size = "100B".toList then 100
  else if size = "1KB".toList then 1024
  else if size = "10KB".toList then 10240
  else if size = "100KB".toList then 102400
  else other

theorem sizeOf_text (other : ℕ) (n : Name) :
    sizeOf other n.text = n.param.elim other fun p => tableSize other p.text := by
  have h100B : contains "_100B".toList n.text = n.param.any fun p => p.text = "100B".toList :=
    contains_size n ⟨"100".toList, by decide, forall_mem_of_all (by decide)⟩ .b
  have h1KB : contains "_1KB".toList n.text = n.param.any fun p => p.text = "1KB".toList :=
    contains_size n ⟨"1".toList, by decide, forall_mem_of_all (by decide)⟩ .kb
  have h10KB : contains "_10KB".toList n.text = n.param.any fun p => p.text = "10KB".toList :=
    contains_size n ⟨"10".toList, by decide, forall_mem_of_all (by decide)⟩ .kb
  have h100KB : contains "_100KB".toList n.text = n.param.any fun p => p.text = "100KB".toList :=
    contains_size n ⟨"100".toList, by decide, forall_mem_of_all (by decide)⟩ .kb
  unfold sizeOf
  rw [h100B, h1KB, h10KB, h100KB]
  cases n.param with
  | none => rfl
  | some p => simp only [Option.any_some, Option.elim_some, tableSize, decide_eq_true_eq]

theorem contains_256 (n : Name) :
    contains "_256".toList n.text = n.param.any fun p => decide p.Begins256 := by
  have hfound : contains "_256".toList n.text =
      decide (∃ p, n.param = some p ∧ "256".toList <+: p.text) := contains_text rfl
  rw [hfound]
  cases n.param with
  | none => simp
  | some p =>
      rw [Option.any_some, decide_eq_decide]
      simp [Param.Begins256]

end Parts

/-! ## What the parsers make of a parameter -/

section Params

variable {size : Text}

theorem isNumeral_int (d : Digits) : isNumeral d.text = true := by
  unfold isNumeral
  rw [Bool.and_eq_true, List.all_eq_true]
  exact ⟨by simp [d.nonempty], d.isDigit⟩

theorem isNumeral_size (d : Digits) (unit : SizeUnit) : isNumeral (d.text ++ unit.text) = false := by
  unfold isNumeral
  cases unit <;> simp [SizeUnit.text]

theorem tableSize_of_listed (h : Listed size) (other : ℕ) :
    tableSize other size = tableSize 0 size ∧ tableSize 0 size ≠ 0 := by
  rcases h with rfl | rfl | rfl | rfl <;> exact ⟨rfl, by decide⟩

theorem tableSize_of_not_listed (h : ¬ Listed size) (other : ℕ) : tableSize other size = other := by
  simp only [Listed, not_or] at h
  obtain ⟨h100B, h1KB, h10KB, h100KB⟩ := h
  rw [tableSize, if_neg h100B, if_neg h1KB, if_neg h10KB, if_neg h100KB]

theorem tableSize_eq_100 : tableSize 0 size = 100 ↔ size = "100B".toList := by
  unfold tableSize
  split_ifs with h100B <;> simp_all

theorem Digits.not_listed (d : Digits) : ¬ Listed d.text := by
  intro h
  have hB : 'B' ∈ d.text := by rcases h with h | h | h | h <;> rw [h] <;> decide
  exact absurd (d.isDigit 'B' hB) (by decide)

theorem Param.not_begins256 {p : Param} (h : Listed p.text) : ¬ p.Begins256 := by
  unfold Param.Begins256
  rcases h with h | h | h | h <;> rw [h] <;> decide

end Params

section Compare

variable {n : Name}

/-- For an integer the two differ where Go sees the size 256 or the integer is too large. -/
theorem parseResultName_int {d : Digits} (hp : n.param = some (.int d)) :
    Python.parseResultName n.text = Go.parseResultName n.text ↔ (Param.int d).ReadAlike n.operation := by
  have hvalue : pyInt d.text = some d.value := by
    rw [pyInt, if_pos (isNumeral_int d), Digits.value]
  have hatoi : atoi d.text = min d.value (2 ^ 63 - 1) := by
    rw [atoi, if_pos (isNumeral_int d), Digits.value]
  have htable : ∀ other, tableSize other d.text = other := tableSize_of_not_listed d.not_listed
  have hbound : d.value ≤ 9223372036854775807 ↔ d.value < 9223372036854775808 := Nat.lt_succ_iff.symm
  unfold Python.parseResultName Go.parseResultName
  simp only [operationOf_text, schemeOf_text, startsWith_text, n.third_part, sizeOf_text, contains_256, hp]
  by_cases h256 : (Param.int d).Begins256 <;> cases n.operation <;>
    simp [Param.ReadAlike, Param.WithinOr, Param.text, hvalue, hatoi, htable, h256, hbound]

/-- For a size Python sets the size of the message or nothing, and Go sets something in any case. -/
theorem parseResultName_size {d : Digits} {unit : SizeUnit} (hp : n.param = some (.size d unit)) :
    Python.parseResultName n.text = Go.parseResultName n.text ↔
      (Param.size d unit).ReadAlike n.operation := by
  have hvalue : pyInt (d.text ++ unit.text) = none := by
    rw [pyInt, if_neg (by simp [isNumeral_size])]
  have hatoi : atoi (d.text ++ unit.text) = 0 := by
    rw [atoi, if_neg (by simp [isNumeral_size])]
  unfold Python.parseResultName Go.parseResultName
  simp only [operationOf_text, schemeOf_text, startsWith_text, n.third_part, sizeOf_text, contains_256, hp]
  by_cases hlisted : Listed (d.text ++ unit.text)
  · have h256 : ¬ (Param.size d unit).Begins256 := Param.not_begins256 hlisted
    obtain ⟨-, hne⟩ := tableSize_of_listed hlisted 0
    cases n.operation <;>
      simp [Param.ReadAlike, Param.WithinOr, Param.text, hvalue, hatoi, h256, hlisted, hne, tableSize_eq_100]
  · have htable : ∀ other, tableSize other (d.text ++ unit.text) = other :=
      tableSize_of_not_listed hlisted
    have h100B : d.text ++ unit.text ≠ ['1', '0', '0', 'B'] := fun h => hlisted (.inl h)
    by_cases h256 : (Param.size d unit).Begins256 <;> cases n.operation <;>
      simp [Param.ReadAlike, Param.WithinOr, Param.text, hvalue, hatoi, htable, h256, hlisted, h100B]

/-- **Which names are read alike.** -/
theorem parseResultName_eq_iff (n : Name) :
    Python.parseResultName n.text = Go.parseResultName n.text ↔ n.ReadAlike := by
  cases hp : n.param with
  | none =>
      unfold Python.parseResultName Go.parseResultName Name.ReadAlike
      simp only [operationOf_text, schemeOf_text, startsWith_text, n.third_part, sizeOf_text, contains_256, hp]
      simp
  | some p =>
      have hread : n.ReadAlike ↔ p.ReadAlike n.operation := by simp [Name.ReadAlike, hp]
      rw [hread]
      cases p with
      | int d => exact parseResultName_int hp
      | size d unit => exact parseResultName_size hp

end Compare

end PqcMigration.Benchmarks
