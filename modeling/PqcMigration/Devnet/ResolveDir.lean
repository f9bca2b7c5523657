/-
# PqcMigration.Devnet.ResolveDir — `resolve_devnet_dir` of `scripts/lib/common.sh`, and the directory that
`load` of `config.js` takes.

The shell looks for the same key in the same places, with other tools: the last line of a file that
BEGINS with `DEVNET_DIR=`, everything after the first `=`, and placeholders only at the very beginning.
Nothing else about a line is looked at, and a value from the environment is printed as it is.

The last line that either of the two takes for the key decides, `devnet.env` being after the example. A line
that both take is one value with blanks around it or without, which the shell keeps, and two expansions:
`Simple` says on which values these agree. A line that only one takes leaves the other with a line before
it. `$HOME` of the shell is the home directory that `node` reports. A file is text; and an ampersand in the
home directory, which newer versions of bash take for the match, is left out.
-/
import Mathlib.Data.List.Basic
import PqcMigration.Devnet.Config
import PqcMigration.Lib.Lines

namespace PqcMigration.Devnet.Config

open Lib.Lines

/-! ## The shell function -/

def dirKey : Text := "DEVNET_DIR".toList

/-- `cut -d= -f2-`, of a line that has a delimiter. -/
def cutFields (line : Text) : Text := (line.dropWhile (· ≠ '=')).drop 1

/-- `grep -E '^DEVNET_DIR=' | … | cut -d= -f2-`, of one line. -/
def shellLine (line : Text) : Option Text :=
  if (dirKey ++ ['=']).isPrefixOf line then some (cutFields line) else none

/-- The last line counts. With no line, nothing is printed. -/
def shellValue (file : Option Text) : Text := (lastRead shellLine (fileLines file)).getD []

/-- `${v/#\$HOME/$HOME}` and `${v/#\~/$HOME}` -/
def shellExpand (home v : Text) : Text :=
  let v := if "$HOME".toList.isPrefixOf v then home ++ v.drop 5 else v
  if ['~'].isPrefixOf v then home ++ v.drop 1 else v

/-- The loop over the two files, up to one with a value. -/
def firstValue (home : Text) : List (Option Text) → Option Text
  | [] => none
  | file :: rest =>
      if shellValue file = [] then firstValue home rest else some (shellExpand home (shellValue file))

def resolveDevnetDir (src : Sources) : Text :=
  if truthy (src.processEnv dirKey) then (src.processEnv dirKey).getD []
  else (firstValue src.host.home [src.devnet, src.example_]).getD
    (src.host.home ++ "/devnet-workdir".toList)

/-! ## `load` -/

/-- The directory that `load` returns; `none` where it throws. -/
def loadDir (src : Sources) (exists_ : Text → Bool) : Option Text :=
  if truthy (src.explicit dirKey) && exists_ ((src.explicit dirKey).getD []) then src.explicit dirKey
  else none

/-- What a line gives the key, before the placeholders are expanded. -/
def nodeLine (line : Text) : Option Text :=
  match matchLine line with
  | some (key, value) => if key = dirKey ∧ (trim line).head? ≠ some '#' then some value else none
  | none => none

def nodeValue (file : Option Text) : Option Text := lastRead nodeLine (fileLines file)

theorem assign_dirKey (host : Host) (out : Env) (line : Text) :
    assign host out line dirKey = ((nodeLine line).map (expand host)).or (out dirKey) := by
  unfold assign nodeLine
  cases matchLine line with
  | none => rfl
  | some kv =>
      obtain ⟨key, value⟩ := kv
      dsimp only
      by_cases hcomment : (trim line).head? = some '#'
      · simp [hcomment]
      · by_cases hkey : key = dirKey
        · simp [hcomment, hkey]
        · simp [hcomment, hkey, Function.update_of_ne (Ne.symm hkey)]

/-- The last line that assigns the key counts. -/
theorem parseEnvFile_dirKey (host : Host) (file : Option Text) :
    parseEnvFile host file dirKey = (nodeValue file).map (expand host) := by
  have hlines : ∀ (lines : List Text) (out : Env), lines.foldl (assign host) out dirKey =
      ((lastRead nodeLine lines).map (expand host)).or (out dirKey) := by
    intro lines
    induction lines with
    | nil => exact fun out => rfl
    | cons line lines ih =>
        intro out
        rw [List.foldl_cons, ih, assign_dirKey, lastRead_cons, Option.map_or, Option.or_assoc]
  rw [parseEnvFile_eq, readLines, hlines, Option.or_none]
  rfl

/-! ## What there is to expand -/

/-- `$NAME` stands somewhere in the text, and the name ends there. -/
def hasVar (name : Text) : Text → Bool
  | [] => false
  | c :: cs =>
      (name.isPrefixOf (c :: cs) && !(((c :: cs).drop name.length).head?.any isWordChar)) || hasVar name cs

/-- Neither of the two variables does. -/
def NoVars (t : Text) : Prop :=
  hasVar "$DEVNET_ROOT".toList t = false ∧ hasVar "$HOME".toList t = false

/-- A tilde that is replaced: at the beginning or after white space, and before a slash or the end. -/
def hasTilde : Bool → Text → Bool
  | _, [] => false
  | here, c :: cs => (here && c == '~' && (cs.isEmpty || cs.head? == some '/')) || hasTilde (isSpace c) cs

/-- The text does not end in a blank. -/
def Unblank (t : Text) : Prop := t.getLast?.any isSpace = false

/-- A path as `path.resolve` and `os.homedir` give it. -/
structure Absolute (path : Text) : Prop where
  slash : path.head? = some '/'
  unblank : Unblank path

/-- A value that the two expand alike: `$HOME` at the beginning, or a tilde there, or neither, and nothing
else that `node` would replace. -/
inductive Simple (home : Text) : Text → Prop where
  | home {rest : Text} : rest.head?.any isWordChar = false → NoVars rest →
      hasTilde true (home ++ rest) = false → Simple home ("$HOME".toList ++ rest)
  | tilde {rest : Text} : (rest = [] ∨ rest.head? = some '/') → NoVars rest → hasTilde false rest = false →
      Simple home ('~' :: rest)
  | plain {v : Text} : ¬ "$HOME".toList <+: v → v.head? ≠ some '~' → NoVars v → hasTilde true v = false →
      Simple home v

section Replace

variable {name value home t : Text} {here : Bool}

theorem replaceVar_of_not_hasVar (h : hasVar name t = false) : replaceVar name value 0 t = t := by
  induction t with
  | nil => rfl
  | cons c cs ih =>
      obtain ⟨hhead, htail⟩ := Bool.or_eq_false_iff.mp h
      rw [replaceVar]
      simp only [hhead, Bool.false_eq_true, if_false, ih htail]

/-- Every replacement takes a dollar sign away. -/
theorem count_replaceVar (hvalue : '$' ∉ value) (t : Text) (skip : ℕ) :
    (replaceVar ('$' :: name) value skip t).count '$' ≤ t.count '$' ∧
      (skip = 0 → hasVar ('$' :: name) t = true →
        (replaceVar ('$' :: name) value skip t).count '$' < t.count '$') := by
  induction t generalizing skip with
  | nil => exact ⟨Nat.le_refl _, fun _ h => nomatch h⟩
  | cons c cs ih =>
      cases skip with
      | succ skip => exact ⟨Nat.le_trans (ih skip).1 List.count_le_count_cons, nofun⟩
      | zero =>
          rw [replaceVar, hasVar]
          split
          · next hmatch =>
              obtain ⟨hbegins, -⟩ := Bool.and_eq_true_iff.mp hmatch
              obtain ⟨rfl, -⟩ := List.cons_prefix_cons.mp (List.isPrefixOf_iff_prefix.mp hbegins)
              have hrest := (ih (('$' :: name).length - 1)).1
              rw [List.count_append, List.count_eq_zero.mpr hvalue, List.count_cons_self]
              exact ⟨by omega, fun _ _ => by omega⟩
          · next hmatch =>
              obtain ⟨hle, hlt⟩ := ih 0
              rw [Bool.not_eq_true] at hmatch
              rw [hmatch, Bool.false_or, List.count_cons, List.count_cons]
              exact ⟨Nat.add_le_add_right hle _, fun h0 hvar => Nat.add_lt_add_right (hlt h0 hvar) _⟩

theorem count_replaceTilde (hhome : '$' ∉ home) : (replaceTilde home here t).count '$' = t.count '$' := by
  induction t generalizing here with
  | nil => rfl
  | cons c cs ih =>
      rw [replaceTilde]
      split
      · next hmatch =>
          simp only [Bool.and_eq_true, beq_iff_eq] at hmatch
          rw [List.count_append, List.count_eq_zero.mpr hhome, ih, hmatch.1.2, Nat.zero_add,
            List.count_cons_of_ne (by decide)]
      · rw [List.count_cons, List.count_cons, ih]

/-- A text and its expansion part where a tilde becomes a slash. -/
theorem replaceTilde_eq_self_iff (hhome : home.head? = some '/') :
    replaceTilde home here t = t ↔ hasTilde here t = false := by
  induction t generalizing here with
  | nil => exact iff_of_true rfl rfl
  | cons c cs ih =>
      rw [replaceTilde, hasTilde]
      split
      · next hmatch =>
          rw [hmatch, Bool.true_or]
          simp only [Bool.and_eq_true, beq_iff_eq] at hmatch
          refine iff_of_false (fun heq => ?_) Bool.noConfusion
          have hhead := congrArg List.head? heq
          rw [List.head?_append, hhome, Option.some_or, List.head?_cons, hmatch.1.2] at hhead
          exact absurd hhead (by decide)
      · next hmatch =>
          rw [Bool.not_eq_true] at hmatch
          rw [hmatch, Bool.false_or, ← ih, List.cons.injEq, eq_self_iff_true, true_and]

/-! ### The first and the last character -/

theorem head?_replaceVar (hvalue : value.head? = some '/') (t : Text) :
    (replaceVar name value 0 t).head? = t.head? ∨ (replaceVar name value 0 t).head? = some '/' := by
  cases t with
  | nil => exact .inl rfl
  | cons c cs =>
      rw [replaceVar]
      split
      · exact .inr (by rw [List.head?_append, hvalue]; rfl)
      · exact .inl rfl

theorem head?_replaceTilde (hhome : home.head? = some '/') (t : Text) :
    (replaceTilde home here t).head? = t.head? ∨ (replaceTilde home here t).head? = some '/' := by
  cases t with
  | nil => exact .inl rfl
  | cons c cs =>
      rw [replaceTilde]
      split
      · exact .inr (by rw [List.head?_append, hhome]; rfl)
      · exact .inl rfl

theorem any_of_head? {t u : Text} {p : Char → Bool} (h : u.head? = t.head? ∨ u.head? = some '/')
    (hp : p '/' = false) (ht : t.head?.any p = false) : u.head?.any p = false := by
  obtain h | h := h <;> rw [h]
  · exact ht
  · exact hp

theorem unblank_append {t u : Text} (ht : Unblank t) : Unblank (t ++ u) ↔ Unblank u := by
  unfold Unblank at ht ⊢
  rw [List.getLast?_append]
  cases u.getLast? with
  | none => exact iff_of_true ht rfl
  | some c => exact Iff.rfl

theorem Unblank.tail {c : Char} {cs : Text} (h : Unblank (c :: cs)) : Unblank cs := by
  cases cs with
  | nil => rfl
  | cons d ds => exact h

/-- One character more, before what has come of the rest. -/
theorem Unblank.cons {c : Char} {cs u : Text} (h : Unblank (c :: cs)) (hu : Unblank u)
    (hhead : u.head? = cs.head? ∨ u.head? = some '/') : Unblank (c :: u) := by
  cases u with
  | cons d ds => exact hu
  | nil =>
      obtain hnone | hslash := hhead
      · rwa [List.head?_eq_none_iff.mp hnone.symm] at h
      · cases hslash

theorem Unblank.replaceVar (hvalue : Absolute value) (skip : ℕ) (ht : Unblank t) :
    Unblank (replaceVar name value skip t) := by
  induction t generalizing skip with
  | nil => rfl
  | cons c cs ih =>
      cases skip with
      | succ skip => exact ih skip ht.tail
      | zero =>
          rw [Config.replaceVar]
          split
          · exact (unblank_append hvalue.unblank).mpr (ih _ ht.tail)
          · exact ht.cons (ih 0 ht.tail) (head?_replaceVar hvalue.slash cs)

theorem Unblank.replaceTilde (hhome : Absolute home) (ht : Unblank t) :
    Unblank (replaceTilde home here t) := by
  induction t generalizing here with
  | nil => rfl
  | cons c cs ih =>
      rw [Config.replaceTilde]
      split
      · exact (unblank_append hhome.unblank).mpr (ih ht.tail)
      · exact ht.cons (ih ht.tail) (head?_replaceTilde hhome.slash cs)

end Replace

/-! ## The two expansions -/

section Expand

variable {host : Host} {t rest v raw : Text}

def replaceVars (host : Host) (t : Text) : Text :=
  replaceVar "$HOME".toList host.home 0 (replaceVar "$DEVNET_ROOT".toList host.root 0 t)

theorem expand_eq (host : Host) (t : Text) :
    expand host t = replaceTilde host.home true (replaceVars host t) := rfl

theorem replaceVars_of_noVars (h : NoVars t) : replaceVars host t = t := by
  rw [replaceVars, replaceVar_of_not_hasVar h.1, replaceVar_of_not_hasVar h.2]

/-- Something is replaced, or no dollar sign is gone. -/
theorem noVars_of_count (h : (replaceVars host t).count '$' = t.count '$') : NoVars t := by
  have hroot : hasVar "$DEVNET_ROOT".toList t = false := by
    rw [← Bool.not_eq_true]
    intro hvar
    have hlt := (count_replaceVar host.root_plain t 0).2 rfl hvar
    have hle : (replaceVars host t).count '$' ≤ (replaceVar "$DEVNET_ROOT".toList host.root 0 t).count '$' :=
      (count_replaceVar host.home_plain _ 0).1
    exact absurd (Nat.lt_of_le_of_lt hle hlt) (h ▸ Nat.lt_irrefl _)
  refine ⟨hroot, ?_⟩
  rw [replaceVars, replaceVar_of_not_hasVar hroot] at h
  rw [← Bool.not_eq_true]
  exact fun hvar => Nat.ne_of_lt ((count_replaceVar host.home_plain t 0).2 rfl hvar) h

theorem noVars_of_expanded {here : Bool} (h : replaceTilde host.home here (replaceVars host t) = t) :
    NoVars t :=
  noVars_of_count ((count_replaceTilde host.home_plain).symm.trans (congrArg (List.count '$') h))

/-- Nothing to expand. -/
theorem expand_eq_self_iff (hhome : Absolute host.home) :
    expand host t = t ↔ NoVars t ∧ hasTilde true t = false := by
  constructor
  · intro h
    have hvars := noVars_of_expanded h
    rw [expand_eq, replaceVars_of_noVars hvars, replaceTilde_eq_self_iff hhome.slash] at h
    exact ⟨hvars, h⟩
  · rintro ⟨hvars, htilde⟩
    rw [expand_eq, replaceVars_of_noVars hvars, (replaceTilde_eq_self_iff hhome.slash).mpr htilde]

theorem replaceVar_skip (name value t v : Text) :
    replaceVar name value t.length (t ++ v) = replaceVar name value 0 v := by
  induction t with
  | nil => rfl
  | cons c t ih => exact ih

theorem replaceVar_begins {name value w : Text} (hword : w.head?.any isWordChar = false) :
    replaceVar ('$' :: name) value 0 ('$' :: (name ++ w)) = value ++ replaceVar ('$' :: name) value 0 w := by
  have hbegins : ('$' :: name).isPrefixOf ('$' :: (name ++ w)) = true :=
    List.isPrefixOf_iff_prefix.mpr ⟨w, rfl⟩
  have hafter : ('$' :: (name ++ w)).drop ('$' :: name).length = w := List.drop_left
  rw [replaceVar]
  simp only [hbegins, hafter, hword, Bool.not_false, Bool.and_self, if_true]
  exact congrArg (value ++ ·) (replaceVar_skip _ _ name w)

theorem replaceVar_cons_of_ne {name value cs : Text} {c : Char} (hname : name.head? = some '$') (hc : c ≠ '$') :
    replaceVar name value 0 (c :: cs) = c :: replaceVar name value 0 cs := by
  obtain ⟨name, rfl⟩ := List.head?_eq_some_iff.mp hname
  rw [replaceVar, if_neg]
  simp [List.isPrefixOf, Ne.symm hc]

theorem replaceVars_home (hroot : Absolute host.root) (hword : rest.head?.any isWordChar = false) :
    replaceVars host ("$HOME".toList ++ rest) = host.home ++ replaceVars host rest := by
  -- what comes after `$HOME` is still no word character
  exact replaceVar_begins (any_of_head? (head?_replaceVar hroot.slash rest) rfl hword)

/-- A longer name is no `$HOME` to `node`. -/
theorem head?_expand_word (hword : rest.head?.any isWordChar = true) :
    (expand host ("$HOME".toList ++ rest)).head? = some '$' := by
  cases rest with
  | nil => cases hword
  | cons c cs =>
      have hc : c ≠ '$' := by
        rintro rfl
        cases hword
      show (replaceTilde _ _ (replaceVar "$HOME".toList _ _ ("$HOME".toList ++ replaceVar _ _ _ (c :: cs)))).head? = _
      rw [replaceVar_cons_of_ne rfl hc]
      generalize replaceVar "$DEVNET_ROOT".toList host.root 0 cs = w
      have hnot : ("$HOME".toList.isPrefixOf ("$HOME".toList ++ c :: w) &&
          !((("$HOME".toList ++ c :: w).drop "$HOME".toList.length).head?.any isWordChar)) = false := by
        rw [List.drop_left]
        exact (congrArg (_ && !·) hword).trans (Bool.and_false _)
      show (replaceTilde _ _ (if _ = true then _ else _)).head? = _
      rw [if_neg (by rw [Bool.not_eq_true]; exact hnot)]
      rfl

theorem replaceVars_tilde (rest : Text) : replaceVars host ('~' :: rest) = '~' :: replaceVars host rest := by
  rw [replaceVars, replaceVar_cons_of_ne rfl (by decide), replaceVar_cons_of_ne rfl (by decide)]
  rfl

theorem shellExpand_home {home : Text} (hhome : Absolute home) :
    shellExpand home ("$HOME".toList ++ rest) = home ++ rest := by
  obtain ⟨cs, rfl⟩ := List.head?_eq_some_iff.mp hhome.slash
  rfl

theorem shellExpand_tilde (home : Text) : shellExpand home ('~' :: rest) = home ++ rest := rfl

theorem shellExpand_plain {home : Text} (hvar : ¬ "$HOME".toList <+: v) (htilde : v.head? ≠ some '~') :
    shellExpand home v = v := by
  have hnot : ¬ ['~'].isPrefixOf v = true := by
    cases v with
    | nil => exact Bool.noConfusion
    | cons c cs =>
        intro hbegins
        obtain ⟨rfl, -⟩ := List.cons_prefix_cons.mp (List.isPrefixOf_iff_prefix.mp hbegins)
        exact htilde rfl
  rw [shellExpand, if_neg (mt List.isPrefixOf_iff_prefix.mp hvar), if_neg hnot]

/-- **The values that both expand alike.** -/
theorem shellExpand_eq_expand_iff (hhome : Absolute host.home) (hroot : Absolute host.root) :
    shellExpand host.home v = expand host v ↔ Simple host.home v := by
  constructor
  · intro heq
    by_cases hvar : "$HOME".toList <+: v
    · obtain ⟨rest, rfl⟩ := hvar
      rw [shellExpand_home hhome] at heq
      cases hword : rest.head?.any isWordChar with
      | true =>
          have hhead := congrArg List.head? heq
          rw [head?_expand_word hword, List.head?_append, hhome.slash, Option.some_or] at hhead
          exact absurd hhead (by decide)
      | false =>
          rw [expand_eq, replaceVars_home hroot hword] at heq
          have hvars : NoVars rest := by
            refine @noVars_of_count host _ ?_
            have hcount := congrArg (List.count '$') heq
            rw [count_replaceTilde host.home_plain, List.count_append, List.count_append] at hcount
            exact (Nat.add_left_cancel hcount).symm
          rw [replaceVars_of_noVars hvars, eq_comm, replaceTilde_eq_self_iff hhome.slash] at heq
          exact .home hword hvars heq
    · by_cases htilde : v.head? = some '~'
      · obtain ⟨rest, rfl⟩ := List.head?_eq_some_iff.mp htilde
        rw [shellExpand_tilde, expand_eq, replaceVars_tilde, replaceTilde] at heq
        split at heq
        · next hhere =>
            have heq := (List.append_cancel_left heq).symm
            have hvars := noVars_of_expanded heq
            rw [replaceVars_of_noVars hvars] at heq hhere
            refine .tilde ?_ hvars ((replaceTilde_eq_self_iff hhome.slash).mp heq)
            simpa using hhere
        · have hhead := congrArg List.head? heq
          rw [List.head?_append, hhome.slash, Option.some_or, List.head?_cons] at hhead
          exact absurd hhead (by decide)
      · rw [shellExpand_plain hvar htilde, eq_comm, expand_eq_self_iff hhome] at heq
        exact .plain hvar htilde heq.1 heq.2
  · intro hv
    cases hv with
    | home hword hvars htilde =>
        rw [shellExpand_home hhome, expand_eq, replaceVars_home hroot hword, replaceVars_of_noVars hvars,
          (replaceTilde_eq_self_iff hhome.slash).mpr htilde]
    | @tilde rest hnext hvars htilde =>
        have hhere : (true && '~' == '~' && (rest.isEmpty || rest.head? == some '/')) = true := by
          simpa using hnext
        rw [shellExpand_tilde, expand_eq, replaceVars_tilde, replaceVars_of_noVars hvars, replaceTilde,
          if_pos hhere, (replaceTilde_eq_self_iff hhome.slash).mpr htilde]
    | plain hvar htilde hvars hnone =>
        rw [shellExpand_plain hvar htilde, (expand_eq_self_iff hhome).mpr ⟨hvars, hnone⟩]

/-! ### Blanks around a value -/

theorem dropWhile_of_head? {t : Text} (h : t.head?.any isSpace = false) : t.dropWhile isSpace = t := by
  cases t with
  | nil => rfl
  | cons c cs => exact List.dropWhile_cons_of_neg (by simpa using h)

theorem trim_eq_self (hhead : t.head?.any isSpace = false) (hlast : Unblank t) : trim t = t := by
  rw [trim, dropWhile_of_head? hhead, dropTrailing, dropWhile_of_head?, List.reverse_reverse]
  rw [List.head?_reverse, hlast]

theorem head?_trim (t : Text) : (trim t).head?.any isSpace = false :=
  head?_any_of_prefix (dropTrailing_begins _ _) (head?_dropWhile_any _ _)

theorem unblank_trim (t : Text) : Unblank (trim t) := by
  rw [Unblank, trim, dropTrailing, List.getLast?_reverse, head?_dropWhile_any]

/-- `node` expands the value without the blanks around it, and gives no others. The shell keeps them. -/
theorem trim_eq_of_expanded (hhome : Absolute host.home) (hroot : Absolute host.root)
    (h : shellExpand host.home raw = expand host (trim raw)) : trim raw = raw := by
  have hhead : (expand host (trim raw)).head?.any isSpace = false :=
    any_of_head? (head?_replaceTilde hhome.slash _) rfl (any_of_head? (head?_replaceVar hhome.slash _) rfl
      (any_of_head? (head?_replaceVar hroot.slash _) rfl (head?_trim raw)))
  have hlast : Unblank (expand host (trim raw)) :=
    (((unblank_trim raw).replaceVar hroot 0).replaceVar hhome 0).replaceTilde hhome
  rw [← h] at hhead hlast
  by_cases hvar : "$HOME".toList <+: raw
  · obtain ⟨rest, rfl⟩ := hvar
    rw [shellExpand_home hhome, unblank_append hhome.unblank] at hlast
    exact trim_eq_self rfl ((unblank_append (t := "$HOME".toList) rfl).mpr hlast)
  · by_cases htilde : raw.head? = some '~'
    · obtain ⟨rest, rfl⟩ := List.head?_eq_some_iff.mp htilde
      rw [shellExpand_tilde, unblank_append hhome.unblank] at hlast
      exact trim_eq_self rfl ((unblank_append (t := ['~']) rfl).mpr hlast)
    · rw [shellExpand_plain hvar htilde] at hhead hlast
      exact trim_eq_self hhead hlast

end Expand

/-! ## The directory -/

section Agree

variable {src : Sources} {exists_ : Text → Bool} {d : Text}

theorem explicit_of_loadDir (h : loadDir src exists_ = some d) :
    src.explicit dirKey = some d ∧ d ≠ [] := by
  unfold loadDir at h
  by_cases hok : (truthy (src.explicit dirKey) && exists_ ((src.explicit dirKey).getD [])) = true
  · rw [if_pos hok] at h
    have htruthy := (Bool.and_eq_true_iff.mp hok).1
    rw [h] at htruthy
    refine ⟨h, ?_⟩
    rintro rfl
    exact nomatch htruthy
  · rw [if_neg hok] at h
    exact nomatch h

/-- From the environment: the shell prints the value, and `node` expands it. -/
theorem resolve_of_env (h : loadDir src exists_ = some d)
    (henv : truthy (src.processEnv dirKey) = true) :
    resolveDevnetDir src = (src.processEnv dirKey).getD [] ∧
      d = expand src.host ((src.processEnv dirKey).getD []) := by
  have hown : dirKey ∉ shellOwned := by decide
  refine ⟨if_pos henv, ?_⟩
  have hexplicit := (explicit_of_loadDir h).1
  unfold Sources.explicit at hexplicit
  simp only [henv, hown, not_false_eq_true, decide_true, Bool.and_true] at hexplicit
  -- some file assigns the key, or `load` would have found no directory
  by_cases hcfg : ((parseEnvFile src.host src.devnet dirKey).or
      (parseEnvFile src.host src.example_ dirKey)).isSome = true
  · rw [if_pos hcfg] at hexplicit
    obtain ⟨value, hvalue, rfl⟩ := Option.map_eq_some_iff.mp hexplicit
    rw [hvalue]
    rfl
  · rw [if_neg hcfg] at hexplicit
    rw [hexplicit] at hcfg
    exact absurd rfl hcfg

/-- What both look through. -/
def envLines (src : Sources) : List Text := fileLines src.example_ ++ fileLines src.devnet

/-- From the files: `node` takes the last value. -/
theorem node_of_files (h : loadDir src exists_ = some d) (henv : truthy (src.processEnv dirKey) = false) :
    ∃ v, lastRead nodeLine (envLines src) = some v ∧ d = expand src.host v ∧ v ≠ [] := by
  obtain ⟨hexplicit, hne⟩ := explicit_of_loadDir h
  unfold Sources.explicit at hexplicit
  simp only [henv, Bool.and_false, Bool.false_and, Bool.false_eq_true, if_false, parseEnvFile_dirKey,
    ← Option.map_or] at hexplicit
  obtain ⟨v, hv, rfl⟩ := Option.map_eq_some_iff.mp hexplicit
  refine ⟨v, by rw [envLines, lastRead_append]; exact hv, rfl, ?_⟩
  rintro rfl
  exact hne rfl

/-- The shell takes the last value too, if it is not empty. -/
theorem shell_of_files {raw : Text} (henv : truthy (src.processEnv dirKey) = false)
    (hraw : lastRead shellLine (envLines src) = some raw) (hne : raw ≠ []) :
    resolveDevnetDir src = shellExpand src.host.home raw := by
  rw [envLines, lastRead_append] at hraw
  rw [resolveDevnetDir, if_neg (by rw [henv]; decide), firstValue, firstValue, shellValue, shellValue]
  cases hfirst : lastRead shellLine (fileLines src.devnet) with
  | some w =>
      obtain rfl : w = raw := by simpa [hfirst] using hraw
      simp [hne]
  | none =>
      rw [hfirst, Option.none_or] at hraw
      simp [hraw, hne]

theorem shellLine_key (raw : Text) : shellLine (dirKey ++ '=' :: raw) = some raw := rfl

theorem nodeLine_key {raw : Text} (hterm : (trim raw).any isLineTerminator = false) :
    nodeLine (dirKey ++ '=' :: raw) = some (trim raw) := by
  have hkey : IsKey dirKey := isKey_of_all (by decide) (by decide)
  unfold nodeLine
  rw [matchLine_key hkey, if_neg (by rw [← trim, hterm]; decide)]
  exact if_pos ⟨rfl, head?_trim_key hkey raw⟩

/-- **The two directories.** A value from the environment is one directory exactly if there is nothing in
it to expand. From the files, the last line that either takes for the key decides; and if it begins with
the key and an equals sign, and has no line terminator inside its value, so that both take it, there is one
directory exactly if the value has no blanks around it and is expanded alike. -/
theorem resolve_devnet_dir_iff (h : loadDir src exists_ = some d) (hhome : Absolute src.host.home)
    (hroot : Absolute src.host.root) :
    (truthy (src.processEnv dirKey) = true →
      (resolveDevnetDir src = d ↔
        NoVars ((src.processEnv dirKey).getD []) ∧ hasTilde true ((src.processEnv dirKey).getD []) = false)) ∧
    (truthy (src.processEnv dirKey) = false →
      (∃ before line, Last shellLine nodeLine (envLines src) before line) ∧
      ∀ before raw, Last shellLine nodeLine (envLines src) before (dirKey ++ '=' :: raw) →
        (trim raw).any isLineTerminator = false →
        (resolveDevnetDir src = d ↔ trim raw = raw ∧ Simple src.host.home raw)) := by
  constructor
  · intro henv
    obtain ⟨hshell, hnode⟩ := resolve_of_env h henv
    rw [hshell, hnode, eq_comm, expand_eq_self_iff hhome]
  · intro henv
    obtain ⟨v, hv, rfl, hne⟩ := node_of_files h henv
    constructor
    · have hread : lastRead nodeLine (envLines src) ≠ none := by
        rw [hv]
        exact Option.some_ne_none v
      obtain ⟨before, line, hlast⟩ := exists_last (g := shellLine) hread
      obtain ⟨after, hsplit, hafter⟩ := hlast.split
      exact ⟨before, line, ⟨after, hsplit, fun y hy => (hafter y hy).symm⟩, hlast.read.symm⟩
    · intro before raw hlast hterm
      have hnode := hlast.right
      have hshell := hlast.left
      rw [nodeLine_key hterm, Option.some_or, hv, Option.some.injEq] at hnode
      rw [shellLine_key, Option.some_or] at hshell
      have hraw : raw ≠ [] := by
        rintro rfl
        exact hne hnode
      rw [shell_of_files henv hshell hraw, hnode]
      constructor
      · intro heq
        have htrim := trim_eq_of_expanded hhome hroot heq
        rw [htrim] at heq
        exact ⟨htrim, (shellExpand_eq_expand_iff hhome hroot).mp heq⟩
      · rintro ⟨htrim, hsimple⟩
        rw [htrim, (shellExpand_eq_expand_iff hhome hroot).mpr hsimple]

end Agree

/-- A host with nothing but these two files, and `DEVNET_DIR` in the environment or not. -/
def twoFiles (env : Option Text) (devnet example_ : String) : Sources where
  host := shortHost
  processEnv := fun k => if k = dirKey then env else none
  example_ := some example_.toList
  devnet := some devnet.toList
  ports := none
  cosmos := none

theorem absolute_shortPath : Absolute "/d".toList := ⟨rfl, rfl⟩

theorem resolve_devnet_dir_iff_home :
    loadDir (twoFiles none "" "DEVNET_DIR=$HOME/a$b~1\n") (fun _ => true) = some "/d/a$b~1".toList ∧
      resolveDevnetDir (twoFiles none "" "DEVNET_DIR=$HOME/a$b~1\n") = "/d/a$b~1".toList := by
  have h : loadDir (twoFiles none "" "DEVNET_DIR=$HOME/a$b~1\n") (fun _ => true) = some "/d/a$b~1".toList := by
    decide
  refine ⟨h, ?_⟩
  have hlast : Last shellLine nodeLine (envLines (twoFiles none "" "DEVNET_DIR=$HOME/a$b~1\n")) []
      (dirKey ++ '=' :: "$HOME/a$b~1".toList) :=
    ⟨⟨[[], []], rfl, by decide⟩, .inl (by decide)⟩
  refine (((resolve_devnet_dir_iff h absolute_shortPath absolute_shortPath).2 rfl).2 _ _ hlast
    (by decide)).mpr ⟨by decide, ?_⟩
  show Simple _ ("$HOME".toList ++ "/a$b~1".toList)
  exact .home (by decide) ⟨by decide, by decide⟩ (by decide)

/-- **Two directories**: a placeholder that only `node` knows, a line with a blank before the key, and a
tilde in the environment. -/
theorem devnet_dir_differs :
    (loadDir (twoFiles none "" "DEVNET_DIR=$DEVNET_ROOT/w\n") (fun _ => true) = some "/d/w".toList ∧
      resolveDevnetDir (twoFiles none "" "DEVNET_DIR=$DEVNET_ROOT/w\n") = "$DEVNET_ROOT/w".toList) ∧
    (loadDir (twoFiles none " DEVNET_DIR=/a\n" "DEVNET_DIR=/b\n") (fun _ => true) = some "/a".toList ∧
      resolveDevnetDir (twoFiles none " DEVNET_DIR=/a\n" "DEVNET_DIR=/b\n") = "/b".toList) ∧
    loadDir (twoFiles (some "~/x".toList) "" "DEVNET_DIR=/b\n") (fun _ => true) = some "/d/x".toList ∧
      resolveDevnetDir (twoFiles (some "~/x".toList) "" "DEVNET_DIR=/b\n") = "~/x".toList := by
  decide

end PqcMigration.Devnet.Config
