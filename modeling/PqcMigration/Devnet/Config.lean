/-
# PqcMigration.Devnet.Config — `devnet/lib/config.js`: env files, and what a key resolves to.

An env file is read line by line; a line that matches

    ^\s*([A-Z0-9_]+)\s*=\s*(.*?)\s*$

assigns a key, and a later line wins. `load` layers `devnet.env.example`, `devnet.env`, the process
environment and the generated files, in the order of precedence the source states. An object that is
only ever read by key is a function from keys here; a missing property is `none`, and the tests the
source makes are for TRUTHY values, so an empty string counts as absent there.
-/
import Mathlib.Logic.Function.Basic
import Mathlib.Tactic.Common

namespace PqcMigration.Devnet.Config

abbrev Text := List Char

/-- An object with string properties. -/
abbrev Env := Text → Option Text

/-- A property that an `if` takes for true. -/
def truthy (v : Option Text) : Bool := !(v.getD []).isEmpty

/-! ## Character classes of the regular expressions -/

/-- `\s`, which is also what `trim` removes. -/
def isSpace (c : Char) : Bool :=
  c.toNat ∈ [9, 10, 11, 12, 13, 32, 0xA0, 0x1680, 0x2028, 0x2029, 0x202F, 0x205F, 0x3000, 0xFEFF] ||
    (0x2000 ≤ c.toNat && c.toNat ≤ 0x200A)

/-- What `.` does not match. -/
def isLineTerminator (c : Char) : Bool := c.toNat ∈ [10, 13, 0x2028, 0x2029]

/-- `[A-Z0-9_]` -/
def isKeyChar (c : Char) : Bool :=
  (65 ≤ c.toNat && c.toNat ≤ 90) || (48 ≤ c.toNat && c.toNat ≤ 57) || c.toNat == 95

/-- `\w` -/
def isWordChar (c : Char) : Bool := isKeyChar c || (97 ≤ c.toNat && c.toNat ≤ 122)

def dropTrailing (p : Char → Bool) (t : Text) : Text := (t.reverse.dropWhile p).reverse

def trim (t : Text) : Text := dropTrailing isSpace (t.dropWhile isSpace)

/-! ## `expand` -/

/-- The two directories the placeholders stand for. A dollar sign in a replacement string would be
read as a pattern, so neither path has one. -/
structure Host where
  root : Text
  home : Text
  root_plain : '$' ∉ root
  home_plain : '$' ∉ home

/-- `.replace(/\$NAME\b/g, value)`; `skip` counts the characters of a match still to be dropped. -/
def replaceVar (name value : Text) : ℕ → Text → Text
  | _, [] => []
  | skip + 1, _ :: cs => replaceVar name value skip cs
  | 0, c :: cs =>
      let rest := (c :: cs).drop name.length
      if name.isPrefixOf (c :: cs) && !(rest.head?.any isWordChar) then
        value ++ replaceVar name value (name.length - 1) cs
      else c :: replaceVar name value 0 cs

/-- `.replace(/(^|\s)~(?=\/|$)/g, "$1" + home)`; the flag says that a tilde may stand here. -/
def replaceTilde (home : Text) : Bool → Text → Text
  | _, [] => []
  | here, c :: cs =>
      if here && c == '~' && (cs.isEmpty || cs.head? == some '/') then
        home ++ replaceTilde home false cs
      else c :: replaceTilde home (isSpace c) cs

def expand (host : Host) (value : Text) : Text :=
  replaceTilde host.home true
    (replaceVar "$HOME".toList host.home 0 (replaceVar "$DEVNET_ROOT".toList host.root 0 value))

/-! ## `parseEnvFile` -/

/-- The match of one line: the two groups. -/
def matchLine (line : Text) : Option (Text × Text) :=
  let start := line.dropWhile isSpace
  let key := start.takeWhile isKeyChar
  if key.isEmpty then none
  else
    match (start.dropWhile isKeyChar).dropWhile isSpace with
    | '=' :: rest =>
        let value := dropTrailing isSpace (rest.dropWhile isSpace)
        if value.any isLineTerminator then none else some (key, value)
    | _ => none

/-- One turn of the loop over the lines. -/
def assign (host : Host) (out : Env) (line : Text) : Env :=
  match matchLine line with
  | some (key, value) =>
      if (trim line).head? ≠ some '#' then Function.update out key (some (expand host value)) else out
  | none => out

/-- `none` is a file that does not exist. -/
def parseEnvFile (host : Host) (file : Option Text) : Env :=
  match file with
  | none => fun _ => none
  | some text => (text.splitOn '\n').foldl (assign host) fun _ => none

/-! ## `load` and `require_` -/

def shellOwned : List Text :=
  ["USER", "LOGNAME", "HOME", "PATH", "SHELL", "PWD", "OLDPWD", "TERM", "LANG"].map String.toList

/-- Everything `load` reads, `deploy.env` apart: that file is what the scripts rewrite. -/
structure Sources where
  host : Host
  processEnv : Env
  example_ : Option Text
  devnet : Option Text
  ports : Option Text
  cosmos : Option Text

/-- The example defaults, `devnet.env` over them, and the process environment over both. -/
def Sources.explicit (src : Sources) : Env := fun k =>
  let cfg := (parseEnvFile src.host src.devnet k).or (parseEnvFile src.host src.example_ k)
  if cfg.isSome && truthy (src.processEnv k) && k ∉ shellOwned then
    (src.processEnv k).map (expand src.host)
  else cfg

/-- The generated files, `deploy.env` last. -/
def Sources.generated (src : Sources) (deploy : Option Text) : Env := fun k =>
  ((parseEnvFile src.host deploy k).or (parseEnvFile src.host src.cosmos k)).or
    (parseEnvFile src.host src.ports k)

/-- `load`, with the directory already found to exist. -/
def Sources.load (src : Sources) (deploy : Option Text) : Env := fun k =>
  let filled := fun k => if truthy (src.explicit k) then src.explicit k
    else (src.generated deploy k).or (src.explicit k)
  if k = "BEACON_URL".toList && !truthy (filled k) && truthy (src.generated deploy "BEACON".toList) then
    src.generated deploy "BEACON".toList
  else filled k

/-- The keys of `require_` that are missing. -/
def missing (cfg : Env) (keys : List Text) : List Text := keys.filter fun k => !truthy (cfg k)

/-! ## `upsertDeployEnv` of `devnet/create-eth-client.js` -/

/-- One update: the key's lines go, the new one comes last. -/
def upsertLine (lines : List Text) (kv : Text × Text) : List Text :=
  (lines.filter fun l => !(kv.1 ++ ['=']).isPrefixOf l) ++ [kv.1 ++ '=' :: kv.2]

def upsertDeployEnv (file : Option Text) (updates : List (Text × Text)) : Text :=
  let lines := match file with
    | none => []
    | some text => text.splitOn '\n'
  ['\n'].intercalate ((updates.foldl upsertLine lines).filter fun l => !l.isEmpty) ++ ['\n']

/-! ## Reading back what was written -/

/-- A key as the scripts write them. -/
def IsKey (key : Text) : Prop := key ≠ [] ∧ ∀ c ∈ key, isKeyChar c = true

/-- A value that reads back as itself: nothing to trim and nothing to expand. -/
def IsPlain (value : Text) : Prop := ∀ c ∈ value, isSpace c = false ∧ c ≠ '$' ∧ c ≠ '~'

theorem isKey_of_all {key : Text} (hne : key ≠ []) (h : key.all isKeyChar = true) : IsKey key :=
  ⟨hne, List.all_eq_true.mp h⟩

theorem isPlain_of_all {value : Text}
    (h : (value.all fun c => !isSpace c && !(c = '$') && !(c = '~')) = true) : IsPlain value := by
  intro c hc
  simpa [and_assoc] using List.all_eq_true.mp h c hc

theorem replaceVar_of_notMem {name value t : Text} (ht : '$' ∉ t) :
    replaceVar ('$' :: name) value 0 t = t := by
  induction t with
  | nil => rfl
  | cons c cs ih =>
      obtain ⟨hc, hcs⟩ := not_or.mp (mt List.mem_cons.mpr ht)
      have hno : ('$' :: name).isPrefixOf (c :: cs) = false := by
        simp [List.isPrefixOf, hc]
      rw [replaceVar]
      simp only [hno, Bool.false_and, Bool.false_eq_true, if_false]
      rw [ih hcs]

theorem replaceTilde_of_notMem {home t : Text} (ht : '~' ∉ t) (here : Bool) :
    replaceTilde home here t = t := by
  induction t generalizing here with
  | nil => rfl
  | cons c cs ih =>
      obtain ⟨hc, hcs⟩ := not_or.mp (mt List.mem_cons.mpr ht)
      have hne : (c == '~') = false := beq_eq_false_iff_ne.mpr (Ne.symm hc)
      rw [replaceTilde]
      simp only [hne, Bool.and_false, Bool.false_and, Bool.false_eq_true, if_false]
      rw [ih hcs]

theorem expand_of_notMem (host : Host) {value : Text} (hdollar : '$' ∉ value) (htilde : '~' ∉ value) :
    expand host value = value := by
  have hroot : replaceVar "$DEVNET_ROOT".toList host.root 0 value = value :=
    replaceVar_of_notMem hdollar
  have hhome : replaceVar "$HOME".toList host.home 0 value = value := replaceVar_of_notMem hdollar
  rw [expand, hroot, hhome, replaceTilde_of_notMem htilde]

theorem expand_of_isPlain (host : Host) {value : Text} (hplain : IsPlain value) :
    expand host value = value :=
  expand_of_notMem host (fun h => (hplain _ h).2.1 rfl) fun h => (hplain _ h).2.2 rfl

theorem head?_dropWhile_any (p : Char → Bool) (t : Text) : (t.dropWhile p).head?.any p = false := by
  induction t with
  | nil => rfl
  | cons c cs ih =>
      cases hc : p c with
      | true => rw [List.dropWhile_cons_of_pos hc, ih]
      | false => rw [List.dropWhile_cons_of_neg (by simp [hc])]; simp [hc]

theorem dropTrailing_begins (p : Char → Bool) (t : Text) : dropTrailing p t <+: t := by
  have hsuffix := List.reverse_prefix.mpr (List.dropWhile_suffix (l := t.reverse) p)
  rwa [List.reverse_reverse] at hsuffix

theorem head?_any_of_prefix {p : Char → Bool} {t u : Text} (h : t <+: u) (hu : u.head?.any p = false) :
    t.head?.any p = false := by
  cases t with
  | nil => rfl
  | cons c cs =>
      obtain ⟨v, rfl⟩ := h
      exact hu

theorem dropWhile_eq_self_of_forall {p : Char → Bool} {t : Text} (h : ∀ c ∈ t, p c = false) :
    t.dropWhile p = t := by
  cases t with
  | nil => rfl
  | cons c cs => simp [List.dropWhile, h c List.mem_cons_self]

theorem dropTrailing_eq_self_of_forall {p : Char → Bool} {t : Text} (h : ∀ c ∈ t, p c = false) :
    dropTrailing p t = t := by
  rw [dropTrailing, dropWhile_eq_self_of_forall, List.reverse_reverse]
  intro c hc
  exact h c (List.mem_reverse.mp hc)

theorem isSpace_of_isKeyChar {c : Char} (h : isKeyChar c = true) : isSpace c = false := by
  simp only [isKeyChar, isSpace, Bool.or_eq_true, Bool.and_eq_true, decide_eq_true_eq,
    beq_iff_eq] at h ⊢
  simp only [List.mem_cons, List.not_mem_nil, or_false, Bool.or_eq_false_iff,
    decide_eq_false_iff_not, Bool.and_eq_false_iff]
  omega

theorem isKeyChar_eq : isKeyChar '=' = false := by decide

/-- A line that starts with a key and `=` is that key's, whatever follows. -/
theorem matchLine_key {key : Text} (hkey : IsKey key) (rest : Text) :
    matchLine (key ++ '=' :: rest) =
      if (dropTrailing isSpace (rest.dropWhile isSpace)).any isLineTerminator then none
      else some (key, dropTrailing isSpace (rest.dropWhile isSpace)) := by
  obtain ⟨hne, hchars⟩ := hkey
  have hstart : (key ++ '=' :: rest).dropWhile isSpace = key ++ '=' :: rest := by
    obtain ⟨c, cs, rfl⟩ := List.exists_cons_of_ne_nil hne
    simp [isSpace_of_isKeyChar (hchars c List.mem_cons_self)]
  have htake : (key ++ '=' :: rest).takeWhile isKeyChar = key := by
    rw [List.takeWhile_append_of_pos hchars]
    simp [List.takeWhile, isKeyChar_eq]
  have hdrop : (key ++ '=' :: rest).dropWhile isKeyChar = '=' :: rest := by
    rw [List.dropWhile_append_of_pos hchars]
    simp [List.dropWhile, isKeyChar_eq]
  have hspace : ('=' :: rest).dropWhile isSpace = '=' :: rest := by
    simp [List.dropWhile, show isSpace '=' = false by decide]
  have hnonempty : key.isEmpty = false := by simpa using hne
  simp only [matchLine, hstart, htake, hdrop, hspace, hnonempty, Bool.false_eq_true, if_false]

theorem matchLine_of_isPlain {key value : Text} (hkey : IsKey key) (hplain : IsPlain value) :
    matchLine (key ++ '=' :: value) = some (key, value) := by
  have hspaces : ∀ c ∈ value, isSpace c = false := fun c hc => (hplain c hc).1
  have hterm : value.any isLineTerminator = false := by
    rw [List.any_eq_false]
    intro c hc hline
    -- a line terminator is a space
    have hmem : c.toNat ∈ [10, 13, 0x2028, 0x2029] := by simpa [isLineTerminator] using hline
    have hno := hspaces c hc
    simp only [List.mem_cons, List.not_mem_nil, or_false] at hmem
    rcases hmem with h | h | h | h <;> simp [isSpace, h] at hno
  rw [matchLine_key hkey, dropWhile_eq_self_of_forall hspaces,
    dropTrailing_eq_self_of_forall hspaces, hterm]
  rfl

/-- Reading lines one after another. -/
def readLines (host : Host) (lines : List Text) : Env := lines.foldl (assign host) fun _ => none

/-- An update, as a map sees it. -/
def setKey (env : Env) (kv : Text × Text) : Env := Function.update env kv.1 (some kv.2)

section

variable {host : Host} {key value : Text}

/-- A line of a key assigns no other key. -/
theorem assign_key_of_ne (hkey : IsKey key) (out : Env) (rest : Text) {k : Text} (hk : k ≠ key) :
    assign host out (key ++ '=' :: rest) k = out k := by
  rw [assign, matchLine_key hkey]
  by_cases hterm : (dropTrailing isSpace (rest.dropWhile isSpace)).any isLineTerminator = true
  · rw [if_pos hterm]
  · rw [if_neg hterm]
    show (if _ then _ else out) k = out k
    split
    · exact Function.update_of_ne hk _ _
    · rfl

theorem head?_dropTrailing_cons {p : Char → Bool} {c : Char} (hc : p c = false) (cs : Text) :
    (dropTrailing p (c :: cs)).head? = some c := by
  rw [dropTrailing, List.reverse_cons, List.dropWhile_append]
  split <;> simp [hc]

/-- A line that starts with a key is not a comment. -/
theorem head?_trim_key (hkey : IsKey key) (rest : Text) :
    (trim (key ++ '=' :: rest)).head? ≠ some '#' := by
  obtain ⟨hne, hchars⟩ := hkey
  obtain ⟨c, cs, rfl⟩ := List.exists_cons_of_ne_nil hne
  have hc : isKeyChar c = true := hchars c List.mem_cons_self
  have hstart : (c :: cs ++ '=' :: rest).dropWhile isSpace = c :: (cs ++ '=' :: rest) := by
    simp [isSpace_of_isKeyChar hc]
  rw [trim, hstart, head?_dropTrailing_cons (isSpace_of_isKeyChar hc)]
  intro h
  obtain rfl := Option.some.inj h
  exact absurd hc (by decide)

theorem assign_of_isPlain (hkey : IsKey key) (hplain : IsPlain value) (out : Env) :
    assign host out (key ++ '=' :: value) = Function.update out key (some value) := by
  rw [assign, matchLine_of_isPlain hkey hplain]
  simp only [head?_trim_key hkey value, ne_eq, not_false_eq_true, if_true,
    expand_of_isPlain host hplain]

/-- Dropping lines of other keys changes nothing for `k`. -/
theorem foldl_assign_filter {q : Text → Bool} {k : Text}
    (hq : ∀ line out, q line = false → assign host out line k = out k) (lines : List Text) :
    ∀ out out' : Env, out k = out' k →
      (lines.filter q).foldl (assign host) out k = lines.foldl (assign host) out' k := by
  -- an assignment at `k` depends on the line only, so two maps that agree at `k` stay so
  have hcongr : ∀ (line : Text) (out out' : Env), out k = out' k →
      assign host out line k = assign host out' line k := by
    intro line out out' hout
    cases hmatch : matchLine line with
    | none => simpa only [assign, hmatch] using hout
    | some kv =>
        simp only [assign, hmatch]
        split
        · by_cases hk : k = kv.1
          · rw [hk, Function.update_self, Function.update_self]
          · rw [Function.update_of_ne hk, Function.update_of_ne hk, hout]
        · exact hout
  induction lines with
  | nil => exact fun _ _ hout => hout
  | cons line lines ih =>
      intro out out' hout
      cases hline : q line with
      | true =>
          rw [List.filter_cons_of_pos hline]
          exact ih _ _ (hcongr line out out' hout)
      | false =>
          rw [List.filter_cons_of_neg (by simp [hline])]
          exact ih _ _ (hout.trans (hq line out' hline).symm)

/-- **One update is one assignment.** -/
theorem readLines_upsertLine (hkey : IsKey key) (hplain : IsPlain value) (lines : List Text) :
    readLines host (upsertLine lines (key, value)) =
      Function.update (readLines host lines) key (some value) := by
  rw [readLines, upsertLine, List.foldl_append, List.foldl_cons, List.foldl_nil,
    assign_of_isPlain hkey hplain]
  funext k
  by_cases hk : k = key
  · rw [hk, Function.update_self, Function.update_self]
  · rw [Function.update_of_ne hk, Function.update_of_ne hk]
    refine foldl_assign_filter ?_ lines _ _ rfl
    intro line out hline
    obtain ⟨rest, rfl⟩ : key ++ ['='] <+: line := by
      simpa [List.isPrefixOf_iff_prefix] using hline
    rw [List.append_assoc]
    exact assign_key_of_ne hkey out rest hk

theorem readLines_upserts (updates : List (Text × Text))
    (hupdates : ∀ kv ∈ updates, IsKey kv.1 ∧ IsPlain kv.2) (lines : List Text) :
    readLines host (updates.foldl upsertLine lines) =
      updates.foldl setKey (readLines host lines) := by
  induction updates generalizing lines with
  | nil => rfl
  | cons kv updates ih =>
      obtain ⟨hkey, hplain⟩ := hupdates kv List.mem_cons_self
      rw [List.foldl_cons, List.foldl_cons, ih (fun kv' h => hupdates kv' (List.mem_cons_of_mem _ h))]
      congr 1
      exact readLines_upsertLine hkey hplain lines

/-! ## The file as text -/

/-- A piece has characters of the text, and none at which it was split. -/
theorem mem_of_mem_splitOn {a : Char} {text piece : Text} (h : piece ∈ text.splitOn a) :
    ∀ c ∈ piece, c ≠ a ∧ c ∈ text := by
  induction text generalizing piece with
  | nil =>
      obtain rfl : piece = [] := by simpa using h
      exact fun _ hc => nomatch hc
  | cons d ds ih =>
      rw [List.splitOn_cons_eq_if_modifyHead] at h
      obtain ⟨l, ls, hls⟩ := List.exists_cons_of_ne_nil (List.splitOn_ne_nil a ds)
      rw [hls] at h ih
      have hrest : ∀ piece ∈ l :: ls, ∀ c ∈ piece, c ≠ a ∧ c ∈ d :: ds := fun piece hp c hc =>
        (ih hp c hc).imp_right (List.mem_cons_of_mem d)
      intro c hc
      split at h
      · rcases List.mem_cons.mp h with rfl | h
        · cases hc
        · exact hrest _ h c hc
      · next hd =>
          rcases List.mem_cons.mp h with rfl | h
          · rcases List.mem_cons.mp hc with rfl | hc
            · exact ⟨fun heq => hd (beq_iff_eq.mpr heq), List.mem_cons_self⟩
            · exact hrest _ List.mem_cons_self c hc
          · exact hrest _ (List.mem_cons_of_mem _ h) c hc

/-- Blank lines assign nothing. -/
theorem readLines_filter_nonempty (lines : List Text) :
    readLines host (lines.filter fun l => !l.isEmpty) = readLines host lines := by
  funext k
  refine foldl_assign_filter ?_ lines _ _ rfl
  intro line out hline
  obtain rfl : line = [] := by simpa using hline
  rfl

/-- The lines of a file; one that does not exist has none. -/
def fileLines : Option Text → List Text
  | none => []
  | some text => text.splitOn '\n'

/-- The text that is written: the lines that are not blank. -/
def written (lines : List Text) : Text :=
  ['\n'].intercalate (lines.filter fun l => !l.isEmpty) ++ ['\n']

theorem upsertDeployEnv_eq (file : Option Text) (updates : List (Text × Text)) :
    upsertDeployEnv file updates = written (updates.foldl upsertLine (fileLines file)) := by
  cases file <;> rfl

theorem parseEnvFile_eq (file : Option Text) : parseEnvFile host file = readLines host (fileLines file) := by
  cases file <;> rfl

theorem notMem_fileLines (file : Option Text) : ∀ l ∈ fileLines file, '\n' ∉ l := by
  cases file with
  | none => exact fun l hl => absurd hl List.not_mem_nil
  | some text => exact fun l hl hmem => (mem_of_mem_splitOn hl _ hmem).1 rfl

/-- The lines of a file written back are the non-blank ones, and blank ones at the end. -/
theorem fileLines_written {lines : List Text} (hlines : ∀ l ∈ lines, '\n' ∉ l) :
    ∃ blank, (∀ l ∈ blank, l = []) ∧
      fileLines (some (written lines)) = (lines.filter fun l => !l.isEmpty) ++ blank := by
  unfold fileLines written
  have hnl : ∀ l ∈ lines.filter fun l => !l.isEmpty, '\n' ∉ l := fun l hl =>
    hlines l (List.mem_filter.mp hl).1
  generalize lines.filter (fun l => !l.isEmpty) = kept at hnl ⊢
  cases kept with
  | nil => exact ⟨[[], []], by simp, rfl⟩
  | cons l ls =>
      refine ⟨[[]], by simp, ?_⟩
      dsimp only
      rw [List.splitOn_append_cons_self, List.splitOn_intercalate _ hnl (List.cons_ne_nil l ls)]
      rfl

theorem readLines_written {lines : List Text} (hlines : ∀ l ∈ lines, '\n' ∉ l) :
    readLines host (fileLines (some (written lines))) = readLines host lines := by
  obtain ⟨blank, hblank, hsplit⟩ := fileLines_written hlines
  have hnone : blank.filter (fun l => !l.isEmpty) = [] := by
    rw [List.filter_eq_nil_iff]
    intro l hl
    simp [hblank l hl]
  rw [hsplit, ← readLines_filter_nonempty, List.filter_append, hnone, List.append_nil,
    readLines_filter_nonempty, readLines_filter_nonempty]

/-- No update puts a line break inside a line. -/
theorem notMem_upserts (updates : List (Text × Text))
    (hupdates : ∀ kv ∈ updates, IsKey kv.1 ∧ IsPlain kv.2) {lines : List Text}
    (hlines : ∀ l ∈ lines, '\n' ∉ l) : ∀ l ∈ updates.foldl upsertLine lines, '\n' ∉ l := by
  induction updates generalizing lines with
  | nil => exact hlines
  | cons kv updates ih =>
      obtain ⟨hkey, hplain⟩ := hupdates kv List.mem_cons_self
      refine ih (fun kv' h => hupdates kv' (List.mem_cons_of_mem _ h)) ?_
      intro l hl
      rcases List.mem_append.mp hl with hl | hl
      · exact hlines l (List.mem_filter.mp hl).1
      · obtain rfl := List.mem_singleton.mp hl
        intro hmem
        rcases List.mem_append.mp hmem with h | h
        · exact absurd (hkey.2 _ h) (by decide)
        · rcases List.mem_cons.mp h with h | h
          · exact absurd h (by decide)
          · exact absurd (hplain _ h).1 (by decide)

/-- **Upsert is a map update.** Reading the file `upsertDeployEnv` wrote gives what was read before,
with the updates on top. -/
theorem parseEnvFile_upsertDeployEnv (file : Option Text) (updates : List (Text × Text))
    (hupdates : ∀ kv ∈ updates, IsKey kv.1 ∧ IsPlain kv.2) :
    parseEnvFile host (some (upsertDeployEnv file updates)) =
      updates.foldl setKey (parseEnvFile host file) := by
  rw [upsertDeployEnv_eq, parseEnvFile_eq, parseEnvFile_eq, ← readLines_upserts updates hupdates]
  exact readLines_written (notMem_upserts updates hupdates (notMem_fileLines file))

/-! ## Writing twice -/

/-- The line of an update. -/
def updateLine (kv : Text × Text) : Text := kv.1 ++ '=' :: kv.2

/-- The line is of none of the updated keys. -/
def untouched (updates : List (Text × Text)) (l : Text) : Bool :=
  updates.all fun kv => !(kv.1 ++ ['=']).isPrefixOf l

theorem updateLine_own_key (kv : Text × Text) : (kv.1 ++ ['=']).isPrefixOf (updateLine kv) = true := by
  rw [List.isPrefixOf_iff_prefix, updateLine]
  exact ⟨kv.2, by rw [List.append_assoc]; rfl⟩

/-- A line that begins with two keys begins with one key. -/
theorem updateLine_other_key {kv kv' : Text × Text} (hkey : IsKey kv.1) (hkey' : IsKey kv'.1)
    (hne : kv.1 ≠ kv'.1) : (kv'.1 ++ ['=']).isPrefixOf (updateLine kv) = false := by
  have hstop {key : Text} (h : IsKey key) (rest : Text) :
      (key ++ '=' :: rest).takeWhile isKeyChar = key := by
    rw [List.takeWhile_append_of_pos h.2, List.takeWhile_cons_of_neg (by simp [isKeyChar_eq]),
      List.append_nil]
  rw [Bool.eq_false_iff]
  intro hbegins
  obtain ⟨rest, hrest⟩ := List.isPrefixOf_iff_prefix.mp hbegins
  rw [List.append_assoc, updateLine] at hrest
  exact hne (((hstop hkey kv.2).symm.trans (congrArg _ hrest.symm)).trans (hstop hkey' rest))

/-- All updates at once: the lines of their keys go, and their lines come last. -/
theorem upserts_eq (updates : List (Text × Text)) (hkeys : ∀ kv ∈ updates, IsKey kv.1)
    (hnodup : (updates.map Prod.fst).Nodup) (lines : List Text) :
    updates.foldl upsertLine lines = lines.filter (untouched updates) ++ updates.map updateLine := by
  induction updates generalizing lines with
  | nil =>
      have hall : lines.filter (untouched []) = lines := List.filter_eq_self.mpr fun l _ => rfl
      rw [hall]
      exact (List.append_nil lines).symm
  | cons kv updates ih =>
      obtain ⟨hkey, hkeys⟩ := List.forall_mem_cons.mp hkeys
      obtain ⟨hfresh, hnodup⟩ := List.nodup_cons.mp hnodup
      have hline : untouched updates (updateLine kv) = true := by
        rw [untouched, List.all_eq_true]
        intro kv' hkv'
        have hne : kv.1 ≠ kv'.1 := fun h => hfresh (h ▸ List.mem_map_of_mem hkv')
        rw [updateLine_other_key hkey (hkeys kv' hkv') hne]
        rfl
      have hboth : (lines.filter fun l => !(kv.1 ++ ['=']).isPrefixOf l).filter (untouched updates) =
          lines.filter (untouched (kv :: updates)) := by
        rw [List.filter_filter]
        exact List.filter_congr fun l _ => Bool.and_comm _ _
      calc updates.foldl upsertLine (upsertLine lines kv)
          = (upsertLine lines kv).filter (untouched updates) ++ updates.map updateLine :=
            ih hkeys hnodup _
        _ = (lines.filter (untouched (kv :: updates)) ++ [updateLine kv]) ++ updates.map updateLine := by
            have hlast : [kv.1 ++ '=' :: kv.2].filter (untouched updates) = [updateLine kv] :=
              List.filter_cons_of_pos hline
            rw [upsertLine, List.filter_append, hboth, hlast]
        _ = lines.filter (untouched (kv :: updates)) ++ (kv :: updates).map updateLine := by
            rw [List.append_assoc]
            rfl

/-- The update lines are the lines that the next application removes. -/
theorem filter_untouched_updateLines (updates : List (Text × Text)) :
    (updates.map updateLine).filter (untouched updates) = [] := by
  rw [List.filter_eq_nil_iff]
  intro l hl
  obtain ⟨kv, hkv, rfl⟩ := List.mem_map.mp hl
  rw [untouched, List.all_eq_true]
  intro hall
  have := hall kv hkv
  rw [updateLine_own_key] at this
  exact nomatch this

theorem updateLine_nonempty (kv : Text × Text) : (!(updateLine kv).isEmpty) = true := by
  rw [updateLine]
  cases kv.1 <;> rfl

/-- **The same updates again leave the lines as they are.** -/
theorem upserts_again (updates : List (Text × Text)) (hkeys : ∀ kv ∈ updates, IsKey kv.1)
    (hnodup : (updates.map Prod.fst).Nodup) (lines blank : List Text) (hblank : ∀ l ∈ blank, l = []) :
    (updates.foldl upsertLine
      ((updates.foldl upsertLine lines).filter (fun l => !l.isEmpty) ++ blank)).filter
        (fun l => !l.isEmpty) =
      (updates.foldl upsertLine lines).filter fun l => !l.isEmpty := by
  have hupdates : (updates.map updateLine).filter (fun l => !l.isEmpty) = updates.map updateLine := by
    rw [List.filter_eq_self]
    intro l hl
    obtain ⟨kv, -, rfl⟩ := List.mem_map.mp hl
    exact updateLine_nonempty kv
  have hblanks : (blank.filter (untouched updates)).filter (fun l => !l.isEmpty) = [] := by
    rw [List.filter_eq_nil_iff]
    intro l hl
    rw [hblank l (List.mem_filter.mp hl).1]
    simp
  rw [upserts_eq updates hkeys hnodup, upserts_eq updates hkeys hnodup]
  simp only [List.filter_append, hupdates, hblanks, filter_untouched_updateLines, List.append_nil,
    List.filter_filter]
  congr 1
  apply List.filter_congr
  intro l _
  cases untouched updates l <;> cases l.isEmpty <;> rfl

theorem setKeys_of_notMem {k : Text} (updates : List (Text × Text)) (hk : k ∉ updates.map Prod.fst)
    (env : Env) : updates.foldl setKey env k = env k := by
  induction updates generalizing env with
  | nil => rfl
  | cons kv updates ih =>
      obtain ⟨hne, hk⟩ := List.ne_and_not_mem_of_not_mem_cons hk
      rw [List.foldl_cons, ih hk, setKey, Function.update_of_ne hne]

theorem setKeys_of_mem (updates : List (Text × Text)) (hnodup : (updates.map Prod.fst).Nodup)
    {kv : Text × Text} (hkv : kv ∈ updates) (env : Env) :
    updates.foldl setKey env kv.1 = some kv.2 := by
  induction updates generalizing env with
  | nil => exact absurd hkv List.not_mem_nil
  | cons kv' updates ih =>
      obtain ⟨hfresh, hnodup⟩ := List.nodup_cons.mp hnodup
      rcases List.mem_cons.mp hkv with rfl | hkv
      · rw [List.foldl_cons, setKeys_of_notMem updates hfresh, setKey, Function.update_self]
      · exact ih hnodup hkv _

theorem upsertDeployEnv_again (file : Option Text) (updates : List (Text × Text))
    (hupdates : ∀ kv ∈ updates, IsKey kv.1 ∧ IsPlain kv.2) (hnodup : (updates.map Prod.fst).Nodup) :
    upsertDeployEnv (some (upsertDeployEnv file updates)) updates = upsertDeployEnv file updates := by
  have hkeys : ∀ kv ∈ updates, IsKey kv.1 := fun kv hkv => (hupdates kv hkv).1
  obtain ⟨blank, hblank, hsplit⟩ :=
    fileLines_written (notMem_upserts updates hupdates (notMem_fileLines file))
  rw [upsertDeployEnv_eq, upsertDeployEnv_eq, hsplit, written,
    upserts_again updates hkeys hnodup (fileLines file) blank hblank]
  rfl

/-- **Upsert is a map update**, and does nothing the second time. The updates are the properties of an
object, so no key comes twice. -/
theorem upsertDeployEnv_spec (file : Option Text) (updates : List (Text × Text))
    (hupdates : ∀ kv ∈ updates, IsKey kv.1 ∧ IsPlain kv.2) (hnodup : (updates.map Prod.fst).Nodup) :
    (∀ kv ∈ updates,
      parseEnvFile host (some (upsertDeployEnv file updates)) kv.1 = some kv.2) ∧
    (∀ k, k ∉ updates.map Prod.fst →
      parseEnvFile host (some (upsertDeployEnv file updates)) k = parseEnvFile host file k) ∧
    upsertDeployEnv (some (upsertDeployEnv file updates)) updates = upsertDeployEnv file updates := by
  rw [parseEnvFile_upsertDeployEnv file updates hupdates]
  exact ⟨fun kv hkv => setKeys_of_mem updates hnodup hkv _,
    fun k hk => setKeys_of_notMem updates hk _, upsertDeployEnv_again file updates hupdates hnodup⟩

end

theorem notMem_shortPath : '$' ∉ "/d".toList := by decide

/-- A host with short paths. -/
def shortHost : Host := ⟨"/d".toList, "/d".toList, notMem_shortPath, notMem_shortPath⟩

/-- A file in which the key stands twice, once with blanks around it. -/
theorem upsertDeployEnv_spec_eth_client :
    parseEnvFile shortHost
        (some (upsertDeployEnv (some "A=1\nETH_CLIENT_ID=old\n ETH_CLIENT_ID = x\n".toList)
          [("ETH_CLIENT_ID".toList, "new".toList)])) "ETH_CLIENT_ID".toList = some "new".toList ∧
      parseEnvFile shortHost
        (some (upsertDeployEnv (some "A=1\nETH_CLIENT_ID=old\n ETH_CLIENT_ID = x\n".toList)
          [("ETH_CLIENT_ID".toList, "new".toList)])) "A".toList =
        parseEnvFile shortHost (some "A=1\nETH_CLIENT_ID=old\n ETH_CLIENT_ID = x\n".toList) "A".toList := by
  have hupdates : ∀ kv ∈ [("ETH_CLIENT_ID".toList, "new".toList)], IsKey kv.1 ∧ IsPlain kv.2 :=
    List.forall_mem_singleton.mpr ⟨isKey_of_all (by decide) (by decide), isPlain_of_all (by decide)⟩
  have h := @upsertDeployEnv_spec shortHost
    (some "A=1\nETH_CLIENT_ID=old\n ETH_CLIENT_ID = x\n".toList) _ hupdates (by decide)
  exact ⟨h.1 _ List.mem_cons_self, h.2.1 _ (by decide)⟩

end PqcMigration.Devnet.Config
