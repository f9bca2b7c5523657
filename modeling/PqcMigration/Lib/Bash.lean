/-
# PqcMigration.Lib.Bash — what bash makes of a text between double quotes.

Between double quotes a backslash quotes a dollar sign, a backtick, a double quote, a backslash or a
newline, and is itself kept before anything else; a dollar sign expands what follows, if that can begin an
expansion; a backtick begins a command. Everything else is literal.

What an expansion gives depends on the shell, which is a parameter: `none` is a shell that stops there with
an error, as one with `set -eu` does at a parameter that is not set. Braces, parentheses and brackets after
a dollar sign, and backticks, open something of a grammar of its own; the shell says what it expands to and
how far it goes.
-/
import Mathlib.Tactic.Common

namespace PqcMigration.Lib.Bash

structure Shell where
  /-- `$name` -/
  parameter : List Char → Option (List Char)
  /-- `$1`, `$$`, `$?` and the like -/
  special : Char → Option (List Char)
  /-- the rest of the text from the opening on: what it expands to, and the characters it takes after the
  first -/
  compound : List Char → Option (List Char × ℕ)

def isNameStart (c : Char) : Bool := c.isAlpha || c = '_'

def isNameChar (c : Char) : Bool := c.isAlphanum || c = '_'

def isSpecial (c : Char) : Bool :=
  c.isDigit || c = '@' || c = '*' || c = '#' || c = '?' || c = '-' || c = '$' || c = '!'

def isOpening (c : Char) : Bool := c = '\x7b' || c = '(' || c = '['

/-- The character can begin an expansion after a dollar sign. -/
def beginsExpansion (c : Char) : Bool := isNameStart c || isSpecial c || isOpening c

/-- What a dollar sign or a backtick stands for, and how many characters after it belong to it. -/
def expansion (sh : Shell) (c : Char) (rest : List Char) : Option (List Char × ℕ) :=
  if c = '\x60' then sh.compound (c :: rest)
  else
    match rest with
    | [] => some ([c], 0)
    | d :: _ =>
        if isNameStart d then
          (sh.parameter (rest.takeWhile isNameChar)).map (·, (rest.takeWhile isNameChar).length)
        else if isSpecial d then (sh.special d).map (·, 1)
        else if isOpening d then sh.compound (c :: rest)
        else some ([c], 0)

/-- What a backslash quotes. -/
def isQuotable (c : Char) : Bool := c = '$' || c = '\x60' || c = '"' || c = '\\' || c = '\n'

/-- Text before a result. -/
def prepend (t : List Char) (r : List Char × List Char) : List Char × List Char := (t ++ r.1, r.2)

/-- From after the opening quote: the value, and what is left after the closing one. `skip` counts the
characters that belong to what was expanded already. -/
def dquote (sh : Shell) : ℕ → List Char → Option (List Char × List Char)
  | _, [] => none
  | skip + 1, _ :: cs => dquote sh skip cs
  | 0, c :: cs =>
      if c = '"' then some ([], cs)
      else if c = '\\' then
        match cs with
        | [] => none
        | d :: _ =>
            if isQuotable d then (dquote sh 1 cs).map (prepend (if d = '\n' then [] else [d]))
            else (dquote sh 0 cs).map (prepend [c])
      else if c = '$' ∨ c = '\x60' then
        (expansion sh c cs).bind fun e => (dquote sh e.2 cs).map (prepend e.1)
      else (dquote sh 0 cs).map (prepend [c])

/-- A line `name="…"`, and nothing after it. -/
def assignment (sh : Shell) (line : List Char) : Option (List Char × List Char) :=
  match line.dropWhile isNameChar with
  | '=' :: '"' :: rest =>
      if (line.head?.any isNameStart) then
        match dquote sh 0 rest with
        | some (value, []) => some (line.takeWhile isNameChar, value)
        | _ => none
      else none
  | _ => none

/-! ## Rules -/

/-- A character that means nothing between double quotes. -/
def isLiteral (c : Char) : Bool := !(c = '"' || c = '\\' || c = '$' || c = '\x60')

variable {sh : Shell} {c d : Char} {cs : List Char}

theorem map_prepend_eq_some {t w rest : List Char} {r : Option (List Char × List Char)}
    (h : r.map (prepend t) = some (w, rest)) : ∃ w', r = some (w', rest) ∧ w = t ++ w' := by
  obtain ⟨⟨w', rest'⟩, hr, heq⟩ := Option.map_eq_some_iff.mp h
  obtain ⟨rfl, rfl⟩ := Prod.mk.inj heq
  exact ⟨w', hr, rfl⟩

theorem dquote_literal (h : isLiteral c = true) :
    dquote sh 0 (c :: cs) = (dquote sh 0 cs).map (prepend [c]) := by
  obtain ⟨⟨⟨hquote, hback⟩, hdollar⟩, htick⟩ :
      ((¬ c = '"' ∧ ¬ c = '\\') ∧ ¬ c = '$') ∧ ¬ c = '\x60' := by
    simpa [isLiteral] using h
  conv_lhs => unfold dquote
  simp only [hquote, hback, hdollar, htick, or_self, if_false]

theorem dquote_literals {t : List Char} (h : ∀ c ∈ t, isLiteral c = true) :
    dquote sh 0 (t ++ cs) = (dquote sh 0 cs).map (prepend t) := by
  induction t with
  | nil =>
      rw [List.nil_append]
      cases dquote sh 0 cs <;> rfl
  | cons c t ih =>
      obtain ⟨hc, ht⟩ := List.forall_mem_cons.mp h
      rw [List.cons_append, dquote_literal hc, ih ht, Option.map_map]
      rfl

theorem dquote_quoted (h : isQuotable d = true) (hd : d ≠ '\n') :
    dquote sh 0 ('\\' :: d :: cs) = (dquote sh 0 cs).map (prepend [d]) := by
  rw [dquote]
  simp only [h, hd, if_true, if_false]
  rfl

theorem dquote_backslash (h : isQuotable d = false) :
    dquote sh 0 ('\\' :: d :: cs) = (dquote sh 0 (d :: cs)).map (prepend ['\\']) := by
  conv_lhs => rw [dquote]
  simp [h]

/-- A dollar sign is literal before what cannot begin an expansion. -/
theorem dquote_dollar (h : beginsExpansion d = false) :
    dquote sh 0 ('$' :: d :: cs) = (dquote sh 0 (d :: cs)).map (prepend ['$']) := by
  obtain ⟨⟨hname, hspecial⟩, hopening⟩ : (isNameStart d = false ∧ isSpecial d = false) ∧
      isOpening d = false := by
    simpa [beginsExpansion] using h
  conv_lhs => rw [dquote]
  simp [expansion, hname, hspecial, hopening]

theorem takeWhile_name {key t : List Char} (hkey : ∀ c ∈ key, isNameChar c = true) :
    (key ++ '=' :: t).takeWhile isNameChar = key := by
  rw [List.takeWhile_append_of_pos hkey, List.takeWhile_cons_of_neg (by decide), List.append_nil]

theorem dropWhile_name {key t : List Char} (hkey : ∀ c ∈ key, isNameChar c = true) :
    (key ++ '=' :: t).dropWhile isNameChar = '=' :: t := by
  rw [List.dropWhile_append_of_pos hkey, List.dropWhile_cons_of_neg (by decide)]

/-- The name of a variable. -/
def IsName (key : List Char) : Prop := key.head?.any isNameStart = true ∧ ∀ c ∈ key, isNameChar c = true

/-- A line that begins with a name assigns what is read between the quotes, if that is all. -/
theorem assignment_eq_some_iff {key t value : List Char} (hkey : IsName key) :
    assignment sh (key ++ '=' :: '"' :: t) = some (key, value) ↔ dquote sh 0 t = some (value, []) := by
  obtain ⟨hstart, hchars⟩ := hkey
  have hhead : (key ++ '=' :: '"' :: t).head?.any isNameStart = true := by
    cases key with
    | nil => exact nomatch hstart
    | cons c key => exact hstart
  rw [assignment, dropWhile_name hchars, takeWhile_name hchars]
  simp only [hhead, if_true]
  cases dquote sh 0 t with
  | none => simp
  | some r =>
      obtain ⟨v, rest⟩ := r
      cases rest <;> simp

end PqcMigration.Lib.Bash
