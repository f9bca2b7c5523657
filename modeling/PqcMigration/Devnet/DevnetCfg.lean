/-
# PqcMigration.Devnet.DevnetCfg — `devnet_cfg` of `scripts/lib/common.sh`: a configuration value on its way
into a shell variable.

`node` prints `KEY=` and the value as `JSON.stringify` writes it, and the caller evaluates the line. So the
value passes through two escape languages. They agree on the double quote and on the backslash. But JSON
escapes control characters in a way that bash does not undo, and it does not escape what bash expands: a
dollar sign and a backtick. `handoff_iff` says exactly which values arrive as they were.
-/
import PqcMigration.Devnet.ResolveDir
import PqcMigration.Lib.Bash
import PqcMigration.Lib.Json

namespace PqcMigration.Devnet.Config

open Lib Lib.Bash

/-! ## The line -/

/-- `JSON.stringify`, for one character. Half a surrogate pair on its own is no `Char`. -/
def stringifyChar (c : Char) : Text :=
  if c = '"' then ['\\', '"']
  else if c = '\\' then ['\\', '\\']
  else if c = '\x08' then ['\\', 'b']
  else if c = '\t' then ['\\', 't']
  else if c = '\n' then ['\\', 'n']
  else if c = '\x0c' then ['\\', 'f']
  else if c = '\r' then ['\\', 'r']
  else if c.toNat < 0x20 then Json.escapeUnit c.toNat
  else [c]

def stringify (v : Text) : Text := '"' :: (v.flatMap stringifyChar ++ ['"'])

/-- A line of `devnet_cfg`: a missing property is the empty string. -/
def cfgLine (cfg : Env) (key : Text) : Text := key ++ '=' :: stringify ((cfg key).getD [])

/-- The value arrives as it was: no control character, no backtick, and no dollar sign before a character
that can begin an expansion. -/
def survives : Text → Bool
  | [] => true
  | c :: rest =>
      !(c.toNat < 0x20) && !(c = '\x60') && !(c = '$' && rest.head?.any beginsExpansion) && survives rest

/-! ## One character -/

/-- The text of a control character: a backslash that bash keeps, and then literal characters. -/
def keptEscape : Text → Bool
  | '\\' :: d :: t =>
      !isQuotable d && (d :: t).all fun x => isLiteral x && !(x.toNat < 0x20)
  | _ => false

/-- The control characters are few enough to look at each. -/
theorem of_control {P : Char → Prop} (hall : ∀ n < 0x20, P (Char.ofNat n)) {c : Char} (h : c.toNat < 0x20) :
    P c := by
  have hc := hall c.toNat h
  rwa [Char.ofNat_toNat] at hc

theorem keptEscape_stringifyChar {c : Char} (h : c.toNat < 0x20) :
    keptEscape (stringifyChar c) = true :=
  of_control (P := fun c => keptEscape (stringifyChar c) = true) (by decide) h

/-- A character of the value is quoted by a backslash; or it is a control character, with an escape that
bash keeps; or it is itself. -/
theorem stringifyChar_cases (c : Char) :
    ((c = '"' ∨ c = '\\') ∧ stringifyChar c = ['\\', c]) ∨
    (c.toNat < 0x20 ∧ ∃ d t, stringifyChar c = '\\' :: d :: t ∧ isQuotable d = false ∧
      ∀ x ∈ d :: t, isLiteral x = true ∧ ¬ x.toNat < 0x20) ∨
    (c ≠ '"' ∧ c ≠ '\\' ∧ ¬ c.toNat < 0x20 ∧ stringifyChar c = [c]) := by
  by_cases hquote : c = '"'
  · exact Or.inl ⟨Or.inl hquote, by rw [hquote]; rfl⟩
  · by_cases hback : c = '\\'
    · exact Or.inl ⟨Or.inr hback, by rw [hback]; rfl⟩
    · by_cases hcontrol : c.toNat < 0x20
      · have hkept := keptEscape_stringifyChar hcontrol
        refine Or.inr (Or.inl ⟨hcontrol, ?_⟩)
        unfold keptEscape at hkept
        split at hkept
        · next d t htext =>
            simp only [Bool.and_eq_true, Bool.not_eq_true', List.all_eq_true] at hkept
            exact ⟨d, t, htext, hkept.1, fun x hx => by simpa using hkept.2 x hx⟩
        · exact nomatch hkept
      · refine Or.inr (Or.inr ⟨hquote, hback, hcontrol, ?_⟩)
        have hne {d : Char} (hd : d.toNat < 0x20) : c ≠ d := by
          rintro rfl
          exact hcontrol hd
        simp only [stringifyChar, hquote, hback, hcontrol, if_false,
          hne (show ('\x08').toNat < 0x20 by decide), hne (show ('\t').toNat < 0x20 by decide),
          hne (show ('\n').toNat < 0x20 by decide), hne (show ('\x0c').toNat < 0x20 by decide),
          hne (show ('\r').toNat < 0x20 by decide)]

/-- The value as it stands between the quotes, and the closing one. -/
def quoted (v : Text) : Text := v.flatMap stringifyChar ++ ['"']

theorem quoted_cons (c : Char) (v : Text) : quoted (c :: v) = stringifyChar c ++ quoted v := by
  rw [quoted, List.flatMap_cons, List.append_assoc]
  rfl

theorem not_begins_of_control {c : Char} (h : c.toNat < 0x20) : beginsExpansion c = false :=
  of_control (P := fun c => beginsExpansion c = false) (by decide) h

/-- What follows a dollar sign on the line can begin an expansion exactly if what follows it in the value
can. -/
theorem quoted_head (v : Text) :
    ∃ x t, quoted v = x :: t ∧ beginsExpansion x = v.head?.any beginsExpansion := by
  cases v with
  | nil => exact ⟨'"', [], rfl, rfl⟩
  | cons c v =>
      rw [quoted_cons]
      obtain ⟨hc, htext⟩ | ⟨hc, d, t, htext, -, -⟩ | ⟨-, -, -, htext⟩ := stringifyChar_cases c
      · refine ⟨'\\', c :: quoted v, by rw [htext]; rfl, ?_⟩
        rcases hc with rfl | rfl <;> rfl
      · refine ⟨'\\', d :: t ++ quoted v, by rw [htext]; rfl, ?_⟩
        exact (not_begins_of_control hc).symm
      · exact ⟨c, quoted v, by rw [htext]; rfl, rfl⟩

theorem quoted_cons_of_begins {d : Char} (h : beginsExpansion d = true) (v : Text) :
    quoted (d :: v) = d :: quoted v := by
  rw [quoted_cons]
  obtain ⟨hd, -⟩ | ⟨hd, -⟩ | ⟨-, -, -, htext⟩ := stringifyChar_cases d
  · rcases hd with rfl | rfl <;> exact nomatch h
  · rw [not_begins_of_control hd] at h
    exact nomatch h
  · rw [htext]
    rfl

/-! ## Between the quotes -/

section Quotes

variable {sh : Shell}

theorem dquote_escaped {c : Char} (h : c = '"' ∨ c = '\\') (t : Text) :
    dquote sh 0 (['\\', c] ++ t) = (dquote sh 0 t).map (prepend [c]) := by
  rcases h with rfl | rfl
  · exact dquote_quoted rfl (by decide)
  · exact dquote_quoted rfl (by decide)

/-- An escape of a control character stays as it is. -/
theorem dquote_kept {d : Char} {t : Text} (hd : isQuotable d = false)
    (ht : ∀ x ∈ d :: t, isLiteral x = true ∧ ¬ x.toNat < 0x20) (more : Text) :
    dquote sh 0 ('\\' :: d :: t ++ more) = (dquote sh 0 more).map (prepend ('\\' :: d :: t)) := by
  rw [List.cons_append, List.cons_append, dquote_backslash hd, ← List.cons_append,
    dquote_literals fun x hx => (ht x hx).1, Option.map_map]
  rfl

theorem dquote_dollar_quoted {v : Text} (h : v.head?.any beginsExpansion = false) :
    dquote sh 0 ('$' :: quoted v) = (dquote sh 0 (quoted v)).map (prepend ['$']) := by
  obtain ⟨x, t, htext, hx⟩ := quoted_head v
  rw [htext]
  exact dquote_dollar (hx.trans h)

/-- A value that survives is read back by every shell. -/
theorem dquote_of_survives {v : Text} (h : survives v = true) : dquote sh 0 (quoted v) = some (v, []) := by
  induction v with
  | nil => rfl
  | cons c v ih =>
      simp only [survives, Bool.and_eq_true, Bool.not_eq_true', decide_eq_false_iff_not] at h
      obtain ⟨⟨⟨hcontrol, htick⟩, hdollar⟩, hrest⟩ := h
      rw [quoted_cons]
      obtain ⟨hc, htext⟩ | ⟨hc, -⟩ | ⟨hquote, hback, -, htext⟩ := stringifyChar_cases c
      · rw [htext, dquote_escaped hc, ih hrest]
        rfl
      · exact absurd hc hcontrol
      · rw [htext]
        by_cases hc : c = '$'
        · subst hc
          rw [List.singleton_append, dquote_dollar_quoted (by simpa using hdollar), ih hrest]
          rfl
        · have hliteral : isLiteral c = true := by
            simp [isLiteral, hquote, hback, hc, htick]
          rw [List.singleton_append, dquote_literal hliteral, ih hrest]
          rfl

/-- A shell with `set -eu` in which nothing is set and no command succeeds. -/
def strict : Shell := ⟨fun _ => none, fun _ => some ['0'], fun _ => none⟩

theorem dquote_strict_tick (t : Text) : dquote strict 0 ('\x60' :: t) = none := rfl

/-- An expansion stops the strict shell, or leaves a digit. -/
theorem dquote_strict_dollar {d : Char} (h : beginsExpansion d = true) (t : Text) :
    dquote strict 0 ('$' :: d :: t) = none ∨
      dquote strict 0 ('$' :: d :: t) = (dquote strict 0 t).map (prepend ['0']) := by
  have hexpand : dquote strict 0 ('$' :: d :: t) =
      (expansion strict '$' (d :: t)).bind fun e => (dquote strict e.2 (d :: t)).map (prepend e.1) := rfl
  rw [hexpand, expansion, if_neg (by decide)]
  by_cases hname : isNameStart d = true
  · rw [if_pos hname]
    exact Or.inl rfl
  · rw [if_neg hname]
    by_cases hspecial : isSpecial d = true
    · rw [if_pos hspecial]
      exact Or.inr rfl
    · have hopening : isOpening d = true := by
        simpa [beginsExpansion, hname, hspecial] using h
      rw [if_neg hspecial, if_pos hopening]
      exact Or.inl rfl

theorem survives_cons_of_ne {c : Char} {w : Text} (hcontrol : ¬ c.toNat < 0x20) (htick : c ≠ '\x60')
    (hdollar : c ≠ '$') (hw : survives w = true) : survives (c :: w) = true := by
  simp [survives, hcontrol, htick, hdollar, hw]

theorem survives_append {t w : Text} (ht : ∀ x ∈ t, isLiteral x = true ∧ ¬ x.toNat < 0x20)
    (hw : survives w = true) : survives (t ++ w) = true := by
  induction t with
  | nil => exact hw
  | cons x t ih =>
      obtain ⟨⟨hliteral, hcontrol⟩, ht⟩ := List.forall_mem_cons.mp ht
      have hne : x ≠ '$' ∧ x ≠ '\x60' := by
        constructor <;> rintro rfl <;> exact nomatch hliteral
      exact survives_cons_of_ne hcontrol hne.2 hne.1 (ih ht)

/-- What the strict shell reads survives; and it does not begin an expansion if the value does not. -/
structure Tame (v w : Text) : Prop where
  survives : survives w = true
  head : v.head?.any beginsExpansion = false → w.head?.any beginsExpansion = false

/-- After a dollar sign: it stays, or what it began is expanded. -/
theorem survives_dollar {v w rest : Text}
    (ih : ∀ {u w'}, u.length ≤ v.length → dquote strict 0 (quoted u) = some (w', rest) → Tame u w')
    (h : dquote strict 0 ('$' :: quoted v) = some (w, rest)) : survives w = true := by
  cases hbegins : v.head?.any beginsExpansion with
  | false =>
      rw [dquote_dollar_quoted hbegins] at h
      obtain ⟨w', h', rfl⟩ := map_prepend_eq_some h
      have htame := ih (Nat.le_refl _) h'
      simp [survives, htame.survives, htame.head hbegins]
  | true =>
      cases v with
      | nil => exact nomatch hbegins
      | cons d v =>
          rw [quoted_cons_of_begins hbegins] at h
          rcases dquote_strict_dollar hbegins (quoted v) with hnone | hzero
          · rw [hnone] at h
            exact nomatch h
          · rw [hzero] at h
            obtain ⟨w', h', rfl⟩ := map_prepend_eq_some h
            have htame := ih (Nat.le_succ _) h'
            exact survives_cons_of_ne (by decide) (by decide) (by decide) htame.survives

/-- **What the strict shell reads survives**, whatever the value was: of what does not survive, it expands
or drops every trace. -/
theorem tame_of_strict {v w rest : Text} (h : dquote strict 0 (quoted v) = some (w, rest)) : Tame v w := by
  induction hlen : v.length using Nat.strong_induction_on generalizing v w with
  | _ n ih =>
      subst hlen
      cases v with
      | nil =>
          obtain ⟨rfl, -⟩ := Prod.mk.inj (Option.some.inj h)
          exact ⟨rfl, fun _ => rfl⟩
      | cons c v =>
          have hshorter {u w' : Text} (hu : u.length ≤ v.length)
              (h' : dquote strict 0 (quoted u) = some (w', rest)) : Tame u w' :=
            ih u.length (Nat.lt_succ_of_le hu) h' rfl
          rw [quoted_cons] at h
          obtain ⟨hc, htext⟩ | ⟨hc, d, t, htext, hd, ht⟩ | ⟨hquote, hback, hcontrol, htext⟩ :=
            stringifyChar_cases c
          · rw [htext, dquote_escaped hc] at h
            obtain ⟨w', h', rfl⟩ := map_prepend_eq_some h
            have hw' := (hshorter (Nat.le_refl _) h').survives
            rcases hc with rfl | rfl
            · exact ⟨survives_cons_of_ne (by decide) (by decide) (by decide) hw', fun _ => rfl⟩
            · exact ⟨survives_cons_of_ne (by decide) (by decide) (by decide) hw', fun _ => rfl⟩
          · rw [htext, dquote_kept hd ht] at h
            obtain ⟨w', h', rfl⟩ := map_prepend_eq_some h
            have hw' := survives_append ht (hshorter (Nat.le_refl _) h').survives
            exact ⟨survives_cons_of_ne (by decide) (by decide) (by decide) hw', fun _ => rfl⟩
          · rw [htext, List.singleton_append] at h
            by_cases htick : c = '\x60'
            · rw [htick, dquote_strict_tick] at h
              exact nomatch h
            · by_cases hdollar : c = '$'
              · subst hdollar
                exact ⟨survives_dollar hshorter h, fun hnot => nomatch hnot⟩
              · rw [dquote_literal (by simp [isLiteral, hquote, hback, hdollar, htick])] at h
                obtain ⟨w', h', rfl⟩ := map_prepend_eq_some h
                have hw' := (hshorter (Nat.le_refl _) h').survives
                exact ⟨survives_cons_of_ne hcontrol htick hdollar hw', id⟩

end Quotes

/-! ## The assignment -/

/-- **Values that survive the hand-over.** For every configuration and every name of a variable: the line
assigns the value in every shell exactly if the value has no control character, no backtick, and no dollar
sign before a character that can begin an expansion. -/
theorem handoff_iff (cfg : Env) {key : Text} (hkey : IsName key) :
    (∀ sh, assignment sh (cfgLine cfg key) = some (key, (cfg key).getD [])) ↔
      survives ((cfg key).getD []) = true := by
  have hline (sh : Shell) : assignment sh (cfgLine cfg key) = some (key, (cfg key).getD []) ↔
      dquote sh 0 (quoted ((cfg key).getD [])) = some ((cfg key).getD [], []) :=
    assignment_eq_some_iff hkey
  constructor
  · intro hall
    exact (tame_of_strict ((hline strict).mp (hall strict))).survives
  · intro h sh
    exact (hline sh).mpr (dquote_of_survives h)

/-- A shell in which only `$USER` is set. -/
def userShell : Shell where
  parameter := fun name => if name = "USER".toList then some "me".toList else none
  special := fun _ => some ['0']
  compound := fun _ => none

/-- Quotes, a backslash, blanks, and a dollar sign at the end. -/
theorem handoff_iff_quotes :
    assignment userShell (cfgLine ((twoFiles none "CHAIN_ID=a \"b\" \\ c$\n" "").load none)
      "CHAIN_ID".toList) = some ("CHAIN_ID".toList, "a \"b\" \\ c$".toList) := by
  have hvalue : ((twoFiles none "CHAIN_ID=a \"b\" \\ c$\n" "").load none "CHAIN_ID".toList).getD [] =
      "a \"b\" \\ c$".toList := by decide
  have hkey : IsName "CHAIN_ID".toList := ⟨rfl, List.all_eq_true.mp (by decide)⟩
  have h := (handoff_iff ((twoFiles none "CHAIN_ID=a \"b\" \\ c$\n" "").load none) hkey).mpr
    (by rw [hvalue]; decide) userShell
  rwa [hvalue] at h

/-- **Two values**: `load` leaves `$USER` as it is and the shell replaces it; and a tab comes out as a
backslash and a letter. -/
theorem handoff_changes_value :
    ((twoFiles none "CHAIN_ID=/$USER/c\n" "").load none "CHAIN_ID".toList = some "/$USER/c".toList ∧
      assignment userShell (cfgLine ((twoFiles none "CHAIN_ID=/$USER/c\n" "").load none) "CHAIN_ID".toList) =
        some ("CHAIN_ID".toList, "/me/c".toList)) ∧
    (twoFiles none "CHAIN_ID=a\tb\n" "").load none "CHAIN_ID".toList = some "a\tb".toList ∧
      assignment userShell (cfgLine ((twoFiles none "CHAIN_ID=a\tb\n" "").load none) "CHAIN_ID".toList) =
        some ("CHAIN_ID".toList, "a\\tb".toList) := by
  decide

end PqcMigration.Devnet.Config
