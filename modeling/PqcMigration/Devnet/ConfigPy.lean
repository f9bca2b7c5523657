/-
# PqcMigration.Devnet.ConfigPy — `devnet/lib/config.py`, next to the `config.js` it mirrors.

The two are written line by line alike, and every difference is in what the regular expressions mean. A
Python line keeps its newline, which the pattern of a line takes for trailing space. A `$` in Python also
matches before a newline at the end of the text, so the tilde of a value that ends in `~` and a newline is
expanded there and nowhere else; no line of a file gives such a value, the process environment can. And
the replacement for a tilde is the TEMPLATE `\1` with the home directory after it: digits at the front of
that directory are read with the `\1`.

Texts are printable ASCII, tabs and newlines. The helper `cfg.file` of `config.js` is a function and not a
value of the configuration.
-/
import Mathlib.Data.List.Basic
import Mathlib.Data.List.TakeWhile
import PqcMigration.Devnet.Config

namespace PqcMigration.Devnet.ConfigPy

open Config

/-! ## Texts -/

def isPrintable (c : Char) : Bool := 32 ≤ c.toNat && c.toNat ≤ 126

def isPlainChar (c : Char) : Bool := isPrintable c || c == '\t' || c == '\n'

/-- A text of printable characters, tabs and newlines. -/
abbrev PlainText := { t : Text // ∀ c ∈ t, isPlainChar c = true }

def plain (t : String) (h : t.toList.all isPlainChar = true) : PlainText :=
  ⟨t.toList, List.all_eq_true.mp h⟩

/-- The two directories. A backslash would be an escape in a Python template, as a dollar sign is a
pattern in JavaScript. -/
structure PlainHost extends Host where
  root_printable : root.all isPrintable = true
  home_printable : home.all isPrintable = true
  root_unescaped : '\\' ∉ root
  home_unescaped : '\\' ∉ home

/-! ## `expand` -/

/-- `\s`, which is also what `strip` removes. -/
def isSpace (c : Char) : Bool :=
  (9 ≤ c.toNat && c.toNat ≤ 13) || (28 ≤ c.toNat && c.toNat ≤ 32) ||
    c.toNat ∈ [0x85, 0xA0, 0x1680, 0x2028, 0x2029, 0x202F, 0x205F, 0x3000] ||
    (0x2000 ≤ c.toNat && c.toNat ≤ 0x200A)

def strip (t : Text) : Text := dropTrailing isSpace (t.dropWhile isSpace)

/-- A replacement: the first group or nothing, and a text. -/
structure Template where
  group : Bool
  text : Text

def isOctal (c : Char) : Bool := 48 ≤ c.toNat && c.toNat ≤ 55

/-- `r"\1" + home`. With two octal digits at the front of `home` the escape is that of a character, with
another digit there it is a group that the pattern does not have: `re.error`. -/
def tildeTemplate (home : Text) : Option Template :=
  if home.head?.any Char.isDigit then
    match home with
    | d :: e :: rest =>
        if isOctal d && isOctal e then
          some ⟨false, Char.ofNat (64 + 8 * (d.toNat - 48) + (e.toNat - 48)) :: rest⟩
        else none
    | _ => none
  else some ⟨true, home⟩

/-- `(?=/|$)` -/
def tildeEnds (cs : Text) : Bool := cs.isEmpty || cs == ['\n'] || cs.head? == some '/'

/-- `re.sub(r"(^|\s)~(?=/|$)", template, value)`; the flag says that a tilde may stand here. -/
def replaceTilde (template : Template) : Bool → Text → Text
  | _, [] => []
  | here, c :: cs =>
      if here && c == '~' && tildeEnds cs then
        template.text ++ replaceTilde template false cs
      -- the space is the group, and the template does not put it back
      else if !template.group && isSpace c && cs.head? == some '~' && tildeEnds cs.tail then
        replaceTilde template true cs
      else c :: replaceTilde template (isSpace c) cs

/-- The value with the two variables put in. Neither directory has a backslash, so as templates they are
themselves. -/
def substituteVars (host : Host) (value : Text) : Text :=
  replaceVar "$HOME".toList host.home 0 (replaceVar "$DEVNET_ROOT".toList host.root 0 value)

def expand (host : Host) (template : Template) (value : Text) : Text :=
  replaceTilde template true (substituteVars host value)

/-! ## `_parse` -/

/-- The match of one line, which may end in a newline. -/
def matchLine (line : Text) : Option (Text × Text) :=
  let start := line.dropWhile isSpace
  let key := start.takeWhile isKeyChar
  if key.isEmpty then none
  else
    match (start.dropWhile isKeyChar).dropWhile isSpace with
    | '=' :: rest =>
        let value := dropTrailing isSpace (rest.dropWhile isSpace)
        if value.any (· == '\n') then none else some (key, value)
    | _ => none

def assign (host : Host) (template : Template) (out : Env) (line : Text) : Env :=
  if (strip line).head? = some '#' then out
  else
    match matchLine line with
    | some (key, value) => Function.update out key (some (expand host template value))
    | none => out

/-- `for line in f`: every line with its newline, and what is left after the last one. -/
def fileLines (text : Text) : List Text :=
  let pieces := text.splitOn '\n'
  pieces.dropLast.map (· ++ ['\n']) ++ (pieces.getLast?.toList.filter fun p => !p.isEmpty)

def parse (host : Host) (template : Template) (file : Option Text) : Env :=
  match file with
  | none => fun _ => none
  | some text => (fileLines text).foldl (assign host template) fun _ => none

/-! ## `load`, on both sides -/

/-- The files the devnet tooling writes into `DEVNET_DIR`. -/
structure GeneratedFiles where
  ports : Option PlainText
  cosmos : Option PlainText
  deploy : Option PlainText

/-- What is on disk; `dirs` has the directories that exist. -/
structure ConfigFiles where
  example_ : Option PlainText
  devnet : Option PlainText
  dirs : Text → Option GeneratedFiles

abbrev ProcessEnv := Text → Option PlainText

def content (file : Option PlainText) : Option Text := file.map Subtype.val

/-- What `load` of `config.js` reads. -/
def sourcesOf (host : PlainHost) (env : ProcessEnv) (files : ConfigFiles)
    (generated : GeneratedFiles) : Sources :=
  ⟨host.toHost, fun k => content (env k), content files.example_, content files.devnet,
    content generated.ports, content generated.cosmos⟩

/-- `load` of `config.js`. Its `explicit` part does not depend on the generated files. -/
def loadJs (host : PlainHost) (env : ProcessEnv) (files : ConfigFiles) : Option Env :=
  let devnetDir := (sourcesOf host env files ⟨none, none, none⟩).explicit "DEVNET_DIR".toList
  if truthy devnetDir then
    (files.dirs (devnetDir.getD [])).map fun generated =>
      (sourcesOf host env files generated).load (content generated.deploy)
  else none

section Load

variable (host : PlainHost) (template : Template) (env : ProcessEnv) (files : ConfigFiles)

/-- Texts compare lawfully. -/
local instance lawfulBEqText : LawfulBEq Text := inferInstance

/-- The two files next to the package, and the process environment over them. -/
def explicit : Env := fun k =>
  let cfg := (parse host.toHost template (content files.devnet) k).or
    (parse host.toHost template (content files.example_) k)
  if k ∉ shellOwned && truthy (content (env k)) && cfg.isSome then
    (content (env k)).map (expand host.toHost template)
  else cfg

def generated (g : GeneratedFiles) : Env := fun k =>
  ((parse host.toHost template (content g.deploy) k).or
    (parse host.toHost template (content g.cosmos) k)).or
    (parse host.toHost template (content g.ports) k)

/-- The generated values fill in what is still blank, the beacon's address last. -/
def fillBlanks (cfg generated : Env) : Env := fun k =>
  let filled := fun k => if truthy (cfg k) then cfg k else (generated k).or (cfg k)
  if k = "BEACON_URL".toList && !truthy (filled k) && truthy (generated "BEACON".toList) then
    generated "BEACON".toList
  else filled k

/-- `load`. The template is compiled at every call of `expand`, whether or not there is a tilde; a load
that makes no call has no `DEVNET_DIR`, and raises for that. -/
def load : Option Env :=
  match tildeTemplate host.home with
  | none => none
  | some template =>
      let cfg := explicit host template env files
      let devnetDir := (cfg "DEVNET_DIR".toList).getD []
      if devnetDir = [] then none
      else (files.dirs devnetDir).map fun g => fillBlanks cfg (generated host template g)

end Load

/-! ## Character classes -/

theorem toNat_of_isPlainChar {c : Char} (hc : isPlainChar c = true) :
    (32 ≤ c.toNat ∧ c.toNat ≤ 126) ∨ c.toNat = 9 ∨ c.toNat = 10 := by
  simp only [isPlainChar, isPrintable, Bool.or_eq_true, Bool.and_eq_true, decide_eq_true_eq,
    beq_iff_eq] at hc
  rcases hc with (hprintable | rfl) | rfl
  · exact Or.inl hprintable
  · exact Or.inr (Or.inl rfl)
  · exact Or.inr (Or.inr rfl)

theorem isSpace_eq {c : Char} (hc : isPlainChar c = true) : isSpace c = Config.isSpace c := by
  have hrange := toNat_of_isPlainChar hc
  rw [Bool.eq_iff_iff]
  simp only [isSpace, Config.isSpace, Bool.or_eq_true, Bool.and_eq_true, decide_eq_true_eq,
    List.mem_cons, List.not_mem_nil, or_false]
  omega

theorem isLineTerminator_eq {c : Char} (hc : isPlainChar c = true) :
    isLineTerminator c = (c == '\n') := by
  have hrange := toNat_of_isPlainChar hc
  have hnewline : c = '\n' ↔ c.toNat = 10 := Char.toNat_inj.symm
  rw [Bool.eq_iff_iff, beq_iff_eq, hnewline]
  simp only [isLineTerminator, decide_eq_true_eq, List.mem_cons, List.not_mem_nil, or_false]
  omega

theorem isPlainChar_of_isPrintable {c : Char} (hc : isPrintable c = true) : isPlainChar c = true := by
  simp [isPlainChar, hc]

theorem dropWhile_congr {p q : Char → Bool} {t : Text} (h : ∀ c ∈ t, p c = q c) :
    t.dropWhile p = t.dropWhile q := by
  induction t with
  | nil => rfl
  | cons c cs ih =>
      rw [List.dropWhile_cons, List.dropWhile_cons, h c List.mem_cons_self,
        ih fun d hd => h d (List.mem_cons_of_mem _ hd)]

theorem dropTrailing_congr {p q : Char → Bool} {t : Text} (h : ∀ c ∈ t, p c = q c) :
    dropTrailing p t = dropTrailing q t := by
  rw [dropTrailing, dropTrailing, dropWhile_congr fun c hc => h c (List.mem_reverse.mp hc)]

theorem mem_of_mem_dropTrailing {p : Char → Bool} {t : Text} {c : Char} (h : c ∈ dropTrailing p t) :
    c ∈ t := by
  have hmem := (List.dropWhile_suffix p).mem (List.mem_reverse.mp h)
  exact List.mem_reverse.mp hmem

/-! ## A newline at the end of a line -/

theorem dropTrailing_concat {p : Char → Bool} {n : Char} (hn : p n = true) (t : Text) :
    dropTrailing p (t ++ [n]) = dropTrailing p t := by
  rw [dropTrailing, List.reverse_append, List.reverse_singleton, List.singleton_append,
    List.dropWhile_cons_of_pos hn, ← dropTrailing]

theorem dropWhile_concat {p : Char → Bool} {n : Char} (hn : p n = true) (t : Text) :
    (t ++ [n]).dropWhile p = if t.dropWhile p = [] then [] else t.dropWhile p ++ [n] := by
  rw [List.dropWhile_append, List.dropWhile_cons_of_pos hn]
  simp

/-- Trimming takes a space at the end along. -/
theorem trim_concat {p : Char → Bool} {n : Char} (hn : p n = true) (t : Text) :
    dropTrailing p ((t ++ [n]).dropWhile p) = dropTrailing p (t.dropWhile p) := by
  rw [dropWhile_concat hn]
  split
  · next hnil => rw [hnil]
  · exact dropTrailing_concat hn _

theorem takeWhile_concat {p : Char → Bool} {n : Char} (hn : p n = false) (t : Text) :
    (t ++ [n]).takeWhile p = t.takeWhile p := by
  rw [List.takeWhile_append, List.takeWhile_cons_of_neg (by simp [hn]), List.append_nil]
  split
  · next hall =>
      have hfront : t.takeWhile p <+: t := List.takeWhile_prefix p
      exact (hfront.eq_of_length hall).symm
  · rfl

theorem dropWhile_concat_of_not {p : Char → Bool} {n : Char} (hn : p n = false) (t : Text) :
    (t ++ [n]).dropWhile p = t.dropWhile p ++ [n] := by
  rw [List.dropWhile_append, List.dropWhile_cons_of_neg (by simp [hn])]
  split
  · next hnil => rw [List.isEmpty_iff.mp hnil, List.nil_append]
  · rfl

/-- The pattern takes the newline for trailing space. -/
theorem matchLine_newline (line : Text) : matchLine (line ++ ['\n']) = matchLine line := by
  have hspace : isSpace '\n' = true := by decide
  have hkey : isKeyChar '\n' = false := by decide
  rw [matchLine, matchLine, dropWhile_concat hspace]
  by_cases hblank : line.dropWhile isSpace = []
  · rw [if_pos hblank, hblank]
  · rw [if_neg hblank]
    simp only [takeWhile_concat hkey, dropWhile_concat_of_not hkey, dropWhile_concat hspace]
    cases hafter : ((line.dropWhile isSpace).dropWhile isKeyChar).dropWhile isSpace with
    | nil => rfl
    | cons c rest =>
        simp only [reduceCtorEq, if_false, List.cons_append]
        by_cases hc : c = '='
        · subst hc
          simp only [trim_concat hspace]
        · refine if_congr Iff.rfl rfl ?_
          split
          · next heq => exact absurd (List.cons.inj heq).1 hc
          · split
            · next heq => exact absurd (List.cons.inj heq).1 hc
            · rfl

/-- On a line of plain characters the two patterns match alike. -/
theorem matchLine_eq {line : Text} (hline : ∀ c ∈ line, isPlainChar c = true) :
    matchLine line = Config.matchLine line := by
  have hspaces : ∀ t : Text, (∀ c ∈ t, c ∈ line) → t.dropWhile isSpace = t.dropWhile Config.isSpace :=
    fun t ht => dropWhile_congr fun c hc => isSpace_eq (hline c (ht c hc))
  have hstart := hspaces line fun _ hc => hc
  have hsuffix : ∀ c ∈ (line.dropWhile Config.isSpace).dropWhile isKeyChar, c ∈ line := fun c hc =>
    (List.dropWhile_suffix _).mem ((List.dropWhile_suffix _).mem hc)
  rw [matchLine, Config.matchLine]
  simp only [hstart, hspaces _ hsuffix]
  refine if_congr Iff.rfl rfl ?_
  cases hafter : ((line.dropWhile Config.isSpace).dropWhile isKeyChar).dropWhile Config.isSpace with
  | nil => rfl
  | cons c rest =>
      have hmem : ∀ d ∈ rest, d ∈ line := by
        intro d hd
        apply hsuffix
        apply (List.dropWhile_suffix Config.isSpace).mem
        rw [hafter]
        exact List.mem_cons_of_mem _ hd
      have hvalue : dropTrailing isSpace (rest.dropWhile isSpace) =
          dropTrailing Config.isSpace (rest.dropWhile Config.isSpace) := by
        rw [hspaces rest hmem]
        exact dropTrailing_congr fun d hd =>
          isSpace_eq (hline d (hmem d ((List.dropWhile_suffix _).mem hd)))
      have hterm : (dropTrailing Config.isSpace (rest.dropWhile Config.isSpace)).any (· == '\n') =
          (dropTrailing Config.isSpace (rest.dropWhile Config.isSpace)).any isLineTerminator := by
        rw [Bool.eq_iff_iff, List.any_eq_true, List.any_eq_true]
        refine exists_congr fun d => and_congr_right fun hd => ?_
        rw [isLineTerminator_eq
          (hline d (hmem d ((List.dropWhile_suffix _).mem (mem_of_mem_dropTrailing hd))))]
      by_cases hc : c = '='
      · subst hc
        simp only [hvalue, hterm]
      · simp [hc]

theorem head?_strip_newline (line : Text) : (strip (line ++ ['\n'])).head? = (strip line).head? := by
  rw [strip, strip, trim_concat (by decide)]

theorem strip_eq {line : Text} (hline : ∀ c ∈ line, isPlainChar c = true) :
    strip line = trim line := by
  have hstart : line.dropWhile isSpace = line.dropWhile Config.isSpace :=
    dropWhile_congr fun c hc => isSpace_eq (hline c hc)
  rw [strip, trim, hstart]
  exact dropTrailing_congr fun c hc => isSpace_eq (hline c ((List.dropWhile_suffix _).mem hc))

/-- The value of a line is part of it. -/
theorem mem_of_matchLine {line key value : Text} (h : Config.matchLine line = some (key, value)) :
    ∀ c ∈ value, c ∈ line := by
  simp only [Config.matchLine] at h
  split at h
  · cases h
  · split at h
    · next rest hrest =>
        split at h
        · cases h
        · obtain ⟨-, rfl⟩ := Prod.mk.inj (Option.some.inj h)
          intro c hc
          have hmem : c ∈ '=' :: rest :=
            List.mem_cons_of_mem _ ((List.dropWhile_suffix _).mem (mem_of_mem_dropTrailing hc))
          rw [← hrest] at hmem
          exact (List.dropWhile_suffix _).mem ((List.dropWhile_suffix _).mem
            ((List.dropWhile_suffix _).mem hmem))
    · cases h

theorem isKey_of_matchLine {line key value : Text} (h : Config.matchLine line = some (key, value)) :
    IsKey key := by
  simp only [Config.matchLine] at h
  split at h
  · cases h
  · next hne =>
      split at h
      · split at h
        · cases h
        · obtain ⟨rfl, -⟩ := Prod.mk.inj (Option.some.inj h)
          refine ⟨by simpa using hne, ?_⟩
          intro c hc
          exact List.mem_takeWhile_imp hc
      · cases h

/-- A file assigns keys only. -/
theorem isKey_of_parseEnvFile {host : Host} {file : Option Text} {k : Text}
    (h : (parseEnvFile host file k).isSome) : IsKey k := by
  cases file with
  | none => cases h
  | some text =>
      refine List.foldlRecOn (motive := fun out : Env => ∀ k, (out k).isSome → IsKey k)
        (text.splitOn '\n') (Config.assign host) (fun k h => by cases h) ?_ k h
      intro out hout line _ k hk
      cases hmatch : Config.matchLine line with
      | none =>
          simp only [Config.assign, hmatch] at hk
          exact hout k hk
      | some kv =>
          simp only [Config.assign, hmatch] at hk
          split at hk
          · by_cases hkey : k = kv.1
            · rw [hkey]
              exact isKey_of_matchLine hmatch
            · rw [Function.update_of_ne hkey] at hk
              exact hout k hk
          · exact hout k hk

/-! ## A tilde before the last newline -/

/-- Somewhere a tilde may stand, and stands, with only a newline after it. -/
def dangling : Bool → Text → Bool
  | _, [] => false
  | here, c :: cs => (here && c == '~' && cs == ['\n']) || dangling (Config.isSpace c) cs

theorem mem_of_dangling {here : Bool} {t : Text} (h : dangling here t = true) : '\n' ∈ t := by
  induction t generalizing here with
  | nil => cases h
  | cons c cs ih =>
      simp only [dangling, Bool.or_eq_true, Bool.and_eq_true, beq_iff_eq] at h
      rcases h with ⟨-, rfl⟩ | hlater
      · simp
      · exact List.mem_cons_of_mem _ (ih hlater)

/-- The two replacements differ in such a tilde only. -/
theorem replaceTilde_eq_iff (home : Text) {t : Text} (ht : ∀ c ∈ t, isPlainChar c = true)
    (here : Bool) :
    replaceTilde ⟨true, home⟩ here t = Config.replaceTilde home here t ↔
      dangling here t = false ∨ home = ['~'] := by
  induction t generalizing here with
  | nil => simp [replaceTilde, Config.replaceTilde, dangling]
  | cons c cs ih =>
      have hspace := isSpace_eq (ht c List.mem_cons_self)
      have ih := fun here => ih (fun d hd => ht d (List.mem_cons_of_mem _ hd)) here
      rw [replaceTilde, Config.replaceTilde, dangling, hspace]
      by_cases htilde : (here && c == '~') = true
      · obtain ⟨rfl, hc⟩ := Bool.and_eq_true_iff.mp htilde
        obtain rfl := eq_of_beq hc
        have hword : Config.isSpace '~' = false := by decide
        by_cases hnewline : cs = ['\n']
        · -- expanded here, and not there
          subst hnewline
          have hcancel : home ++ ['\n'] = ['~'] ++ ['\n'] ↔ home = ['~'] := List.append_left_inj _
          simpa [tildeEnds, replaceTilde, Config.replaceTilde] using hcancel
        · have hends : tildeEnds cs = (cs.isEmpty || cs.head? == some '/') := by
            rw [tildeEnds, beq_eq_false_iff_ne.mpr hnewline, Bool.or_false]
          rw [hends, hword]
          cases hslash : cs.isEmpty || cs.head? == some '/' with
          | true => simpa [hnewline] using ih false
          | false => simpa [hnewline] using ih false
      · simpa [htilde] using ih (Config.isSpace c)

theorem mem_replaceVar {name value t : Text} {skip : ℕ} {c : Char} (h : c ∈ replaceVar name value skip t) :
    c ∈ value ∨ c ∈ t := by
  induction t generalizing skip with
  | nil => cases h
  | cons d ds ih =>
      cases skip with
      | succ skip =>
          exact (ih h).imp_right (List.mem_cons_of_mem d)
      | zero =>
          simp only [replaceVar] at h
          split at h
          · rcases List.mem_append.mp h with hvalue | hrest
            · exact Or.inl hvalue
            · exact (ih hrest).imp_right (List.mem_cons_of_mem d)
          · rcases List.mem_cons.mp h with rfl | hrest
            · exact Or.inr List.mem_cons_self
            · exact (ih hrest).imp_right (List.mem_cons_of_mem d)

section Agree

variable (host : PlainHost)

/-- What comes from the directories is printable. -/
theorem mem_substituteVars {value : Text} {c : Char} (h : c ∈ substituteVars host.toHost value) :
    isPrintable c = true ∨ c ∈ value := by
  rcases mem_replaceVar h with hhome | hrest
  · exact Or.inl (List.all_eq_true.mp host.home_printable c hhome)
  · rcases mem_replaceVar hrest with hroot | hvalue
    · exact Or.inl (List.all_eq_true.mp host.root_printable c hroot)
    · exact Or.inr hvalue

/-- The value, once its variables are put in, ends in a tilde that only Python expands. -/
def dangles (host : Host) (value : Text) : Bool := dangling true (substituteVars host value)

theorem dangles_of_notMem {value : Text} (h : '\n' ∉ value) : dangles host.toHost value = false := by
  rw [Bool.eq_false_iff]
  intro hdangles
  rcases mem_substituteVars host (mem_of_dangling hdangles) with hprintable | hmem
  · exact absurd hprintable (by decide)
  · exact h hmem

theorem expand_eq_iff {value : Text} (hvalue : ∀ c ∈ value, isPlainChar c = true) :
    expand host.toHost ⟨true, host.home⟩ value = Config.expand host.toHost value ↔
      dangles host.toHost value = false ∨ host.home = ['~'] := by
  apply replaceTilde_eq_iff
  intro c hc
  rcases mem_substituteVars host hc with hprintable | hmem
  · exact isPlainChar_of_isPrintable hprintable
  · exact hvalue c hmem

/-! ## Files -/

theorem assign_eq {line : Text} (hline : ∀ c ∈ line, isPlainChar c = true) (hnewline : '\n' ∉ line)
    (out : Env) :
    assign host.toHost ⟨true, host.home⟩ out line = Config.assign host.toHost out line := by
  rw [assign, Config.assign, strip_eq hline, matchLine_eq hline]
  cases hmatch : Config.matchLine line with
  | none => simp
  | some kv =>
      have hmem := mem_of_matchLine hmatch
      have hexpand := (expand_eq_iff host fun c hc => hline c (hmem c hc)).mpr
        (Or.inl (dangles_of_notMem host fun hn => hnewline (hmem _ hn)))
      simp only [hexpand, ne_eq, ite_not]

theorem assign_newline_eq (template : Template) (line : Text) (out : Env) :
    assign host.toHost template out (line ++ ['\n']) = assign host.toHost template out line := by
  rw [assign, assign, head?_strip_newline, matchLine_newline]

/-- The two parsers read every file alike. -/
theorem parse_eq (file : Option PlainText) :
    parse host.toHost ⟨true, host.home⟩ (content file) = parseEnvFile host.toHost (content file) := by
  rcases file with - | ⟨text, htext⟩
  · rfl
  · have hpiece : ∀ piece ∈ text.splitOn '\n', ∀ out : Env,
        assign host.toHost ⟨true, host.home⟩ out piece = Config.assign host.toHost out piece :=
      fun piece hp out => assign_eq host (fun c hc => htext c (mem_of_mem_splitOn hp c hc).2)
        (fun hmem => (mem_of_mem_splitOn hp _ hmem).1 rfl) out
    obtain ⟨front, last, hsplit⟩ : ∃ front last, text.splitOn '\n' = front ++ [last] :=
      ⟨_, _, (List.dropLast_concat_getLast (List.splitOn_ne_nil '\n' text)).symm⟩
    rw [hsplit] at hpiece
    have hfront : ∀ out, (front.map (· ++ ['\n'])).foldl (assign host.toHost ⟨true, host.home⟩) out =
        front.foldl (Config.assign host.toHost) out := by
      intro out
      rw [List.foldl_map]
      apply List.foldl_ext
      intro out piece hp
      rw [assign_newline_eq, hpiece piece (List.mem_append_left _ hp)]
    simp only [content, Option.map_some, parse, parseEnvFile, fileLines, hsplit, List.dropLast_concat,
      List.getLast?_concat, Option.toList_some, List.foldl_append, hfront]
    -- nothing is left after the last newline, or a line without one
    cases last with
    | nil => rfl
    | cons c cs => exact hpiece (c :: cs) (by simp) _

end Agree

end PqcMigration.Devnet.ConfigPy
