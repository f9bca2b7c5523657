/-
# PqcMigration.MigrationCost.NodeLimits — the two size limits of a node, as two programs read them.

`txSizeLimit` of `relay-recv-batch.js` and `node_limits` of `measure_data.py` both go through the lines of
`config.toml` without parsing TOML. The first matches a regular expression at the beginning of a line, the
second takes any line that begins with the key and reads what follows the first equals sign with `int`. So
they part on digits with separators, on signs, on longer keys that begin alike, and on characters that end a
line for Python and not for JavaScript. What each of them reads comes from the last line that it reads for
the key (`readJs_ok`, `readPy_ok`); `LimitsAgree` compares the two.

A number in JavaScript is a double: the nearest one to what the digits say, `none` for infinity. Python's
`int` takes the decimal digits of every script; which those are, beyond ASCII, is a parameter. The file is
there, and is UTF-8.

From the two limits follows what a raw transaction may take, since a broadcast carries it in base64.
`sizeLimit_fits_iff` says when the rounding is right.
-/
import Mathlib.Algebra.Order.Ring.Nat
import PqcMigration.Devnet.ConfigPy
import PqcMigration.Lib.Lines
import PqcMigration.MigrationCost.RecvCeiling

namespace PqcMigration.MigrationCost

open Lib Lib.Lines
open Devnet.Config (dropTrailing)
open Devnet.ConfigPy (strip)

namespace NodeLimits

def bodyKey : Text := "max_body_bytes".toList

def txKey : Text := "max_tx_bytes".toList

/-- `raw.split("#")[0]` -/
def uncomment (line : Text) : Text := line.takeWhile (· ≠ '#')

/-- `raw.split("#")[0].trim()` -/
def jsCode (raw : Text) : Text := Devnet.Config.trim (uncomment raw)

/-- `line.split("#")[0].strip()` -/
def pyCode (raw : Text) : Text := strip (uncomment raw)

def unreadable (path : Text) : Text :=
  "could not read max_body_bytes/max_tx_bytes from ".toList ++ path

def decimal (ds : Text) : ℕ := ds.foldl (fun acc c => 10 * acc + (c.toNat - 48)) 0

/-! ## `txSizeLimit` -/

/-- `^key\s*=\s*(\d+)`: the group. -/
def matchKey (key line : Text) : Option Text :=
  if key.isPrefixOf line then
    match (line.drop key.length).dropWhile Devnet.Config.isSpace with
    | '=' :: rest =>
        let ds := (rest.dropWhile Devnet.Config.isSpace).takeWhile Char.isDigit
        if ds = [] then none else some ds
    | _ => none
  else none

/-- A number of JavaScript, `none` for infinity. -/
abbrev Number := Option ℕ

/-- The quotient by a power of two, to the nearest whole number and to the even one of two. -/
def nearest (n e : ℕ) : ℕ :=
  let q := n / 2 ^ e
  let r := n % 2 ^ e
  if 2 * r < 2 ^ e ∨ (2 * r = 2 ^ e ∧ q % 2 = 0) then q else q + 1

/-- `parseInt(ds, 10)`, for digits of value `n`: 53 bits are kept. -/
def toNumber (n : ℕ) : Number :=
  let w := nearest n (n.log2 - 52) * 2 ^ (n.log2 - 52)
  if w.log2 < 1024 then some w else none

/-- `maxBody` and `maxTx`, `none` for `null`. -/
structure JsVars where
  maxBody : Option Number
  maxTx : Option Number

def jsLine (vars : JsVars) (raw : Text) : JsVars :=
  let line := jsCode raw
  match matchKey bodyKey line with
  | some ds => { vars with maxBody := some (toNumber (decimal ds)) }
  | none =>
      match matchKey txKey line with
      | some ds => { vars with maxTx := some (toNumber (decimal ds)) }
      | none => vars

/-- A number that an `if` takes for true. -/
def truthy : Option Number → Option Number
  | some v => if v = some 0 then none else some v
  | none => none

def readJs (path text : Text) : Except Text (Number × Number) :=
  let vars := (text.splitOn '\n').foldl jsLine ⟨none, none⟩
  match truthy vars.maxBody, truthy vars.maxTx with
  | some maxBody, some maxTx => .ok (maxBody, maxTx)
  | _, _ => .error (unreadable path)

/-! ## `node_limits` -/

/-- `read_text` takes `\r\n` and `\r` for a newline. -/
def universalNewlines : Bool → Text → Text
  | _, [] => []
  | afterCr, c :: cs =>
      if c = '\r' then '\n' :: universalNewlines true cs
      else if afterCr && c = '\n' then universalNewlines false cs
      else c :: universalNewlines false cs

/-- What ends a line for `splitlines`. -/
def isBreak (c : Char) : Bool := c.toNat ∈ [10, 11, 12, 13, 28, 29, 30, 0x85, 0x2028, 0x2029]

def splitlines (text : Text) : List Text :=
  let pieces := text.splitOnP isBreak
  if pieces.getLast? = some [] then pieces.dropLast else pieces

/-- The decimal digits of Unicode. -/
structure Digits where
  value : Char → Option ℕ
  ascii : ∀ c, c.toNat < 128 → value c = if c.isDigit then some (c.toNat - 48) else none

/-- The digits of a literal, with single underscores between them. -/
def intBody (digits : Digits) : Bool → ℕ → Text → Option ℕ
  | afterDigit, acc, [] => if afterDigit then some acc else none
  | afterDigit, acc, c :: cs =>
      if c = '_' then if afterDigit then intBody digits false acc cs else none
      else
        match digits.value c with
        | some d => intBody digits true (10 * acc + d) cs
        | none => none

/-- `int(t)`, of a text without blanks around it. More than 4300 digits are refused. -/
def pyInt (digits : Digits) (t : Text) : Option ℤ :=
  if 4300 < (t.filter fun c => (digits.value c).isSome).length then none
  else
    match t with
    | [] => none
    | c :: cs =>
        if c = '+' then (intBody digits false 0 cs).map Int.ofNat
        else if c = '-' then (intBody digits false 0 cs).map fun n => -Int.ofNat n
        else (intBody digits false 0 (c :: cs)).map Int.ofNat

inductive PyFailure where
  | indexError
  | valueError (t : Text)
  | systemExit (message : Text)
  deriving DecidableEq

/-- `int(line.split("=")[1].strip())` -/
def fieldValue (digits : Digits) (line : Text) : Except PyFailure ℤ :=
  match (line.splitOn '=')[1]? with
  | none => .error .indexError
  | some t =>
      match pyInt digits (strip t) with
      | none => .error (.valueError (strip t))
      | some z => .ok z

/-- `max_body` and `max_tx`, `none` for `None`. -/
structure PyVars where
  maxBody : Option ℤ
  maxTx : Option ℤ

def pyLine (digits : Digits) (vars : PyVars) (raw : Text) : Except PyFailure PyVars :=
  let line := pyCode raw
  if bodyKey.isPrefixOf line then
    (fieldValue digits line).map fun z => { vars with maxBody := some z }
  else if txKey.isPrefixOf line then
    (fieldValue digits line).map fun z => { vars with maxTx := some z }
  else .ok vars

def pyTruthy : Option ℤ → Option ℤ
  | some z => if z = 0 then none else some z
  | none => none

def readPy (digits : Digits) (path text : Text) : Except PyFailure (ℤ × ℤ) := do
  let vars ← (splitlines (universalNewlines false text)).foldlM (pyLine digits) ⟨none, none⟩
  match pyTruthy vars.maxBody, pyTruthy vars.maxTx with
  | some maxBody, some maxTx => .ok (maxBody, maxTx)
  | _, _ => .error (.systemExit (unreadable path))

/-! ## What each program reads last -/

/-- What `relay-recv-batch.js` reads for the key from one line. -/
def jsRead (key raw : Text) : Option ℕ := (matchKey key (jsCode raw)).map decimal

/-- What `measure_data.py` reads for the key from one of its lines, if it reads a number. -/
def pyRead (digits : Digits) (key raw : Text) : Option ℤ :=
  if key.isPrefixOf (pyCode raw) then (fieldValue digits (pyCode raw)).toOption
  else none

/-- The same for a line of the file, which can be several to Python. -/
def pyReadAll (digits : Digits) (key raw : Text) : Option ℤ :=
  lastRead (pyRead digits key) (raw.splitOnP isBreak)

/-- No text begins with both keys. -/
theorem not_both_keys {line : Text} (h : bodyKey <+: line) : ¬ txKey <+: line := by
  intro h'
  have : txKey <+: bodyKey := List.prefix_of_prefix_length_le h' h (by decide)
  exact absurd this (by decide)

theorem prefix_of_matchKey {key line ds : Text} (h : matchKey key line = some ds) : key <+: line := by
  unfold matchKey at h
  split at h
  · next hpre => exact List.isPrefixOf_iff_prefix.mp hpre
  · cases h

theorem jsLine_eq (vars : JsVars) (raw : Text) :
    jsLine vars raw = ⟨((jsRead bodyKey raw).map toNumber).or vars.maxBody,
      ((jsRead txKey raw).map toNumber).or vars.maxTx⟩ := by
  unfold jsRead
  cases hbody : matchKey bodyKey (jsCode raw) with
  | some ds =>
      have htx : matchKey txKey (jsCode raw) = none := by
        rw [Option.eq_none_iff_forall_ne_some]
        exact fun ds' h => not_both_keys (prefix_of_matchKey hbody) (prefix_of_matchKey h)
      simp [jsLine, hbody, htx]
  | none => cases htx : matchKey txKey (jsCode raw) <;> simp [jsLine, hbody, htx]

theorem foldl_jsLine (lines : List Text) (vars : JsVars) :
    lines.foldl jsLine vars =
      ⟨((lastRead (jsRead bodyKey) lines).map toNumber).or vars.maxBody,
        ((lastRead (jsRead txKey) lines).map toNumber).or vars.maxTx⟩ := by
  induction lines generalizing vars with
  | nil => rfl
  | cons line lines ih =>
      rw [List.foldl_cons, ih, jsLine_eq, lastRead_cons, lastRead_cons]
      simp only [Option.map_or, Option.or_assoc]

/-- Whatever begins with a key is read. -/
def Complete (digits : Digits) (raw : Text) : Prop :=
  ∀ key ∈ [bodyKey, txKey], key <+: pyCode raw → pyRead digits key raw ≠ none

section Python

variable {digits : Digits}

theorem pyRead_of_begins {key raw : Text} {z : ℤ} (h : key <+: pyCode raw)
    (hz : fieldValue digits (pyCode raw) = .ok z) : pyRead digits key raw = some z := by
  rw [pyRead, if_pos (List.isPrefixOf_iff_prefix.mpr h), hz]
  rfl

theorem pyRead_of_not_begins {key raw : Text} (h : ¬ key <+: pyCode raw) :
    pyRead digits key raw = none := by
  rw [pyRead, if_neg (mt List.isPrefixOf_iff_prefix.mp h)]

theorem pyLine_ok {vars vars' : PyVars} {raw : Text} (h : pyLine digits vars raw = .ok vars') :
    vars' = ⟨(pyRead digits bodyKey raw).or vars.maxBody, (pyRead digits txKey raw).or vars.maxTx⟩ ∧
      Complete digits raw := by
  unfold Complete
  rw [List.forall_mem_cons, List.forall_mem_singleton]
  unfold pyLine at h
  dsimp only at h
  split at h
  · next hbody =>
      have hbody := List.isPrefixOf_iff_prefix.mp hbody
      have htx := not_both_keys hbody
      cases hz : fieldValue digits (pyCode raw) with
      | error e =>
          rw [hz] at h
          cases h
      | ok z =>
          rw [hz] at h
          cases h
          rw [pyRead_of_begins hbody hz, pyRead_of_not_begins htx]
          exact ⟨rfl, fun _ => Option.some_ne_none z, fun h => absurd h htx⟩
  · next hbody =>
      have hbody := mt List.isPrefixOf_iff_prefix.mpr hbody
      split at h
      · next htx =>
          have htx := List.isPrefixOf_iff_prefix.mp htx
          cases hz : fieldValue digits (pyCode raw) with
          | error e =>
              rw [hz] at h
              cases h
          | ok z =>
              rw [hz] at h
              cases h
              rw [pyRead_of_begins htx hz, pyRead_of_not_begins hbody]
              exact ⟨rfl, fun h => absurd h hbody, fun _ => Option.some_ne_none z⟩
      · next htx =>
          have htx := mt List.isPrefixOf_iff_prefix.mpr htx
          cases h
          rw [pyRead_of_not_begins hbody, pyRead_of_not_begins htx]
          exact ⟨rfl, fun h => absurd h hbody, fun h => absurd h htx⟩

theorem foldlM_pyLine {lines : List Text} {vars vars' : PyVars}
    (h : lines.foldlM (pyLine digits) vars = .ok vars') :
    vars' = ⟨(lastRead (pyRead digits bodyKey) lines).or vars.maxBody,
        (lastRead (pyRead digits txKey) lines).or vars.maxTx⟩ ∧
      ∀ raw ∈ lines, Complete digits raw := by
  induction lines generalizing vars with
  | nil =>
      cases h
      exact ⟨rfl, fun _ hmem => absurd hmem List.not_mem_nil⟩
  | cons raw lines ih =>
      rw [List.foldlM_cons] at h
      cases hline : pyLine digits vars raw with
      | error e =>
          rw [hline] at h
          cases h
      | ok vars₁ =>
          rw [hline] at h
          obtain ⟨rfl, hcomplete⟩ := pyLine_ok hline
          obtain ⟨rfl, hall⟩ := ih h
          refine ⟨?_, List.forall_mem_cons.mpr ⟨hcomplete, hall⟩⟩
          rw [lastRead_cons, lastRead_cons]
          simp only [Option.or_assoc]

/-! ### Lines -/

/-- Empty lines say nothing. -/
def proper (lines : List Text) : List Text := lines.filter fun line => !line.isEmpty

theorem proper_splitlines (text : Text) : proper (splitlines text) = proper (text.splitOnP isBreak) := by
  unfold splitlines
  dsimp only
  split
  · next hlast =>
      obtain ⟨init, hinit⟩ := List.getLast?_eq_some_iff.mp hlast
      rw [hinit, List.dropLast_concat, proper, proper, List.filter_append]
      exact (List.append_nil _).symm
  · rfl

/-- The same lines, up to empty ones after the first. -/
def SameLines (lines lines' : List Text) : Prop :=
  ∃ first rest rest', lines = first :: rest ∧ lines' = first :: rest' ∧ proper rest = proper rest'

theorem SameLines.proper_eq {lines lines' : List Text} (h : SameLines lines lines') :
    proper lines = proper lines' := by
  obtain ⟨first, rest, rest', rfl, rfl, hrest⟩ := h
  unfold proper at hrest ⊢
  rw [List.filter_cons, List.filter_cons, hrest]

theorem SameLines.cons {t t' : Text} (h : SameLines (t.splitOnP isBreak) (t'.splitOnP isBreak)) (c : Char) :
    SameLines ((c :: t).splitOnP isBreak) ((c :: t').splitOnP isBreak) := by
  cases hc : isBreak c with
  | true =>
      rw [splitOnP_of_sep hc, splitOnP_of_sep hc]
      exact ⟨[], _, _, rfl, rfl, h.proper_eq⟩
  | false =>
      obtain ⟨first, rest, rest', ht, ht', hrest⟩ := h
      exact ⟨c :: first, rest, rest', splitOnP_of_not_sep hc ht, splitOnP_of_not_sep hc ht', hrest⟩

theorem proper_of_sep {c : Char} (hc : isBreak c = true) (t : Text) :
    proper ((c :: t).splitOnP isBreak) = proper (t.splitOnP isBreak) := by
  rw [splitOnP_of_sep hc]
  rfl

/-- A newline written as two characters gives an empty line more. -/
theorem universalNewlines_lines (text : Text) :
    SameLines ((universalNewlines false text).splitOnP isBreak) (text.splitOnP isBreak) ∧
      proper ((universalNewlines true text).splitOnP isBreak) = proper (text.splitOnP isBreak) := by
  induction text with
  | nil => exact ⟨⟨[], [], [], rfl, rfl, rfl⟩, rfl⟩
  | cons c cs ih =>
      obtain ⟨hfalse, htrue⟩ := ih
      by_cases hcr : c = '\r'
      · subst hcr
        have hnew : ∀ b, universalNewlines b ('\r' :: cs) = '\n' :: universalNewlines true cs := fun _ => rfl
        rw [hnew, hnew, proper_of_sep (by decide), proper_of_sep (by decide), splitOnP_of_sep (by decide),
          splitOnP_of_sep (by decide)]
        exact ⟨⟨[], _, _, rfl, rfl, htrue⟩, htrue⟩
      have hkeep : universalNewlines false (c :: cs) = c :: universalNewlines false cs := by
        simp [universalNewlines, hcr]
      rw [hkeep]
      refine ⟨hfalse.cons c, ?_⟩
      by_cases hlf : c = '\n'
      · subst hlf
        rw [proper_of_sep (by decide)]
        exact hfalse.proper_eq
      · have hkeep : universalNewlines true (c :: cs) = c :: universalNewlines false cs := by
          simp [universalNewlines, hcr, hlf]
        rw [hkeep]
        exact (hfalse.cons c).proper_eq

/-- The lines that Python goes through, empty ones apart, are the lines of the lines of the file. -/
theorem proper_pyLines (text : Text) :
    proper (splitlines (universalNewlines false text)) =
      proper ((text.splitOn '\n').flatMap (List.splitOnP isBreak)) := by
  have hrefine : ∀ c : Char, (c == '\n') = true → isBreak c = true := by
    intro c hc
    rw [eq_of_beq hc]
    decide
  rw [proper_splitlines, (universalNewlines_lines text).1.proper_eq, splitOnP_refine hrefine]
  rfl

theorem not_prefix_nil : ∀ key ∈ [bodyKey, txKey], ¬ key <+: pyCode [] := by decide

theorem pyRead_nil {key : Text} (hkey : key ∈ [bodyKey, txKey]) : pyRead digits key [] = none :=
  pyRead_of_not_begins (not_prefix_nil key hkey)

theorem lastRead_pyLines {key : Text} (hkey : key ∈ [bodyKey, txKey]) (text : Text) :
    lastRead (pyRead digits key) (splitlines (universalNewlines false text)) =
      lastRead (pyReadAll digits key) (text.splitOn '\n') := by
  have hempty : ∀ line : Text, (!line.isEmpty) = false → pyRead digits key line = none := by
    intro line hline
    have hnil : line = [] := by simpa using hline
    rw [hnil, pyRead_nil hkey]
  calc lastRead (pyRead digits key) (splitlines (universalNewlines false text))
      = lastRead (pyRead digits key) (proper (splitlines (universalNewlines false text))) :=
        (lastRead_filter hempty).symm
    _ = lastRead (pyRead digits key) ((text.splitOn '\n').flatMap (List.splitOnP isBreak)) := by
        rw [proper_pyLines]
        exact lastRead_filter hempty
    _ = lastRead (pyReadAll digits key) (text.splitOn '\n') := lastRead_flatMap _ _

/-- Where the program ends, whatever begins with a key was read, on every line of a line. -/
theorem complete_pieces {text : Text}
    (h : ∀ raw ∈ splitlines (universalNewlines false text), Complete digits raw) :
    ∀ raw ∈ text.splitOn '\n', ∀ piece ∈ raw.splitOnP isBreak, Complete digits piece := by
  intro raw hraw piece hpiece
  cases piece with
  | nil => exact fun key hkey hpre => absurd hpre (not_prefix_nil key hkey)
  | cons c cs =>
      have hmem : c :: cs ∈ proper (splitlines (universalNewlines false text)) := by
        rw [proper_pyLines]
        exact List.mem_filter.mpr ⟨List.mem_flatMap.mpr ⟨raw, hraw, hpiece⟩, rfl⟩
      exact h _ (List.mem_filter.mp hmem).1

/-! ### Where the programs end -/

theorem truthy_eq_some {v : Option Number} {b : Number} (h : truthy v = some b) :
    v = some b ∧ b ≠ some 0 := by
  cases v with
  | none => cases h
  | some v =>
      unfold truthy at h
      dsimp only at h
      split at h
      · cases h
      · next hne =>
          cases h
          exact ⟨rfl, hne⟩

theorem pyTruthy_eq_some {v : Option ℤ} {b : ℤ} (h : pyTruthy v = some b) : v = some b := by
  cases v with
  | none => cases h
  | some v =>
      unfold pyTruthy at h
      dsimp only at h
      split at h
      · cases h
      · exact h

/-- Where `txSizeLimit` ends, each number comes from the last line that it reads for the key. -/
theorem readJs_ok {path text : Text} {maxBody maxTx : Number}
    (h : readJs path text = .ok (maxBody, maxTx)) :
    (∃ n, lastRead (jsRead bodyKey) (text.splitOn '\n') = some n ∧ toNumber n = maxBody ∧ maxBody ≠ some 0) ∧
      ∃ n, lastRead (jsRead txKey) (text.splitOn '\n') = some n ∧ toNumber n = maxTx ∧ maxTx ≠ some 0 := by
  unfold readJs at h
  rw [foldl_jsLine] at h
  dsimp only at h
  split at h
  · next b t hb ht =>
      cases h
      obtain ⟨hbody, hbne⟩ := truthy_eq_some hb
      obtain ⟨htx, htne⟩ := truthy_eq_some ht
      rw [Option.or_none] at hbody htx
      obtain ⟨n, hn, hnb⟩ := Option.map_eq_some_iff.mp hbody
      obtain ⟨m, hm, hmt⟩ := Option.map_eq_some_iff.mp htx
      exact ⟨⟨n, hn, hnb, hbne⟩, m, hm, hmt, htne⟩
  · cases h

theorem readPy_ok {path text : Text} {maxBody maxTx : ℤ}
    (h : readPy digits path text = .ok (maxBody, maxTx)) :
    lastRead (pyReadAll digits bodyKey) (text.splitOn '\n') = some maxBody ∧
      lastRead (pyReadAll digits txKey) (text.splitOn '\n') = some maxTx ∧
      ∀ raw ∈ text.splitOn '\n', ∀ piece ∈ raw.splitOnP isBreak, Complete digits piece := by
  unfold readPy at h
  cases hfold : (splitlines (universalNewlines false text)).foldlM (pyLine digits) ⟨none, none⟩ with
  | error e =>
      rw [hfold] at h
      cases h
  | ok vars =>
      rw [hfold] at h
      obtain ⟨rfl, hcomplete⟩ := foldlM_pyLine hfold
      rw [← lastRead_pyLines (by decide), ← lastRead_pyLines (by decide)]
      change (match pyTruthy ((lastRead _ _).or none), pyTruthy ((lastRead _ _).or none) with
        | some maxBody, some maxTx => _
        | _, _ => _) = _ at h
      split at h
      · next b t hb ht =>
          cases h
          rw [Option.or_none] at hb ht
          exact ⟨pyTruthy_eq_some hb, pyTruthy_eq_some ht, complete_pieces hcomplete⟩
      · cases h

end Python

end NodeLimits

/-! ## The limit that follows -/

/-- What may be taken: the smaller of three quarters of the one and the other. -/
theorem txSizeLimit_eq (maxBody maxTx : ℕ) : txSizeLimit maxBody maxTx = min (maxBody * 3 / 4) maxTx := by
  unfold txSizeLimit
  dsimp only
  split <;> omega

/-- Base64 takes four characters for every three bytes begun. -/
theorem b64Len_le_iff (raw maxBody : ℕ) : b64Len raw ≤ maxBody ↔ raw ≤ 3 * (maxBody / 4) := by
  unfold b64Len
  omega

/-- Every transaction within the limit that `txSizeLimit` computes fits the RPC in base64 and the mempool as
it is, exactly if three quarters of the RPC's limit are rounded down to whole groups, or the mempool's limit
is no more than that. -/
theorem sizeLimit_fits_iff (maxBody maxTx : ℕ) :
    (∀ raw ≤ txSizeLimit maxBody maxTx, b64Len raw ≤ maxBody ∧ raw ≤ maxTx) ↔
      maxBody % 4 < 2 ∨ maxTx ≤ 3 * (maxBody / 4) := by
  simp only [txSizeLimit_eq, b64Len_le_iff]
  constructor
  · intro h
    have := (h _ le_rfl).1
    omega
  · intro h raw hraw
    omega

/-- A limit of 1000002 leaves room for 250000 groups, but 750001 bytes take one more. -/
theorem sizeLimit_too_large :
    txSizeLimit 1000002 4194304 = 750001 ∧ b64Len 750001 = 1000004 := by decide

end PqcMigration.MigrationCost
