/-
# PqcMigration.Devnet.ConfigAgree — `load` of `config.js` and `load` of `config.py`, compared.

The files are read alike, so the loads can only differ in what they take from the process environment, and
there only in a value that ends in a tilde and a newline. The other difference is the home directory that
starts with a digit: with it the two disagree about the plainest tilde. Both are exact: `trialFiles` has,
for any key, files that show the difference wherever there is one. And what the scripts write, Python reads.
-/
import PqcMigration.Devnet.ConfigPy

namespace PqcMigration.Devnet.ConfigPy

open Config

/-! ## Loads -/

section Loads

variable (host : PlainHost) (env : ProcessEnv) (files : ConfigFiles)

/-- What `devnet.env` and `devnet.env.example` assign. -/
def assigned : Env := fun k =>
  (parseEnvFile host.toHost (content files.devnet) k).or
    (parseEnvFile host.toHost (content files.example_) k)

/-- The explicit part of the configuration in `config.js`. -/
def explicitJs : Env := (sourcesOf host env files ⟨none, none, none⟩).explicit

/-- No key that the files assign is set in the environment to a value that dangles. -/
def NoneDangles : Prop :=
  ∀ k value, (assigned host files k).isSome → k ∉ shellOwned → env k = some value →
    dangles host.toHost value.val = false

variable {host env files}

theorem isKey_of_assigned {k : Text} (h : (assigned host files k).isSome) : IsKey k := by
  rcases Option.or_eq_some_iff.mp (Option.some_get h).symm with hdevnet | ⟨-, hexample⟩
  · exact isKey_of_parseEnvFile (Option.isSome_of_eq_some hdevnet)
  · exact isKey_of_parseEnvFile (Option.isSome_of_eq_some hexample)

theorem tildeTemplate_eq (hdigit : host.home.head?.any Char.isDigit = false) :
    tildeTemplate host.home = some ⟨true, host.home⟩ := by
  unfold tildeTemplate
  rw [if_neg (by rw [hdigit]; decide)]

theorem truthy_iff {v : Option Text} : truthy v = true ↔ v.getD [] ≠ [] := by
  simp [truthy]

theorem explicit_eq (h : host.home = ['~'] ∨ NoneDangles host env files) :
    explicit host ⟨true, host.home⟩ env files = explicitJs host env files := by
  funext k
  have hcomm : ∀ a b c : Bool, (a && b && c) = (c && b && a) := by decide
  simp only [explicit, parse_eq, hcomm (decide (k ∉ shellOwned))]
  refine ite_congr rfl (fun hcond => ?_) fun _ => rfl
  simp only [Bool.and_eq_true, decide_eq_true_eq] at hcond
  obtain ⟨⟨hassigned, -⟩, hown⟩ := hcond
  show (content (env k)).map _ = (content (env k)).map _
  cases hvalue : env k with
  | none => rfl
  | some value =>
      refine congrArg some ((expand_eq_iff host value.property).mpr ?_)
      rcases h with hhome | hnone
      · exact Or.inr hhome
      · exact Or.inl (hnone k value hassigned hown hvalue)

theorem generated_eq (env : ProcessEnv) (files : ConfigFiles) (g : GeneratedFiles) :
    generated host ⟨true, host.home⟩ g =
      (sourcesOf host env files g).generated (content g.deploy) := by
  funext k
  simp only [generated, parse_eq]
  rfl

theorem loadJs_eq :
    loadJs host env files =
      let devnetDir := (explicitJs host env files "DEVNET_DIR".toList).getD []
      if devnetDir = [] then none
      else (files.dirs devnetDir).map fun g =>
        fillBlanks (explicitJs host env files)
          ((sourcesOf host env files g).generated (content g.deploy)) := by
  have hguard := truthy_iff (v := explicitJs host env files "DEVNET_DIR".toList)
  by_cases hdir : (explicitJs host env files "DEVNET_DIR".toList).getD [] = []
  · rw [loadJs, if_pos hdir]
    exact if_neg fun htruthy => hguard.mp htruthy hdir
  · rw [loadJs, if_neg hdir]
    exact if_pos (hguard.mpr hdir)

theorem load_eq (hdigit : host.home.head?.any Char.isDigit = false)
    (h : host.home = ['~'] ∨ NoneDangles host env files) :
    load host env files = loadJs host env files := by
  rw [load, tildeTemplate_eq hdigit, loadJs_eq]
  simp only [explicit_eq h, generated_eq env files]

/-! ## A value that dangles -/

theorem fillBlanks_of_truthy {cfg : Env} {k : Text} (h : truthy (cfg k) = true) (generated : Env) :
    fillBlanks cfg generated k = cfg k := by
  simp [fillBlanks, h]

theorem newline_mem_replaceTildeJs {t : Text} (h : '\n' ∈ t) (home : Text) (here : Bool) :
    '\n' ∈ Config.replaceTilde home here t := by
  induction t generalizing here with
  | nil => cases h
  | cons c cs ih =>
      rw [Config.replaceTilde]
      rcases List.mem_cons.mp h with rfl | hrest
      · simp
      · split
        · exact List.mem_append_right _ (ih hrest _)
        · exact List.mem_cons_of_mem _ (ih hrest _)

theorem newline_mem_replaceTilde {t : Text} (h : '\n' ∈ t) (home : Text) (here : Bool) :
    '\n' ∈ replaceTilde ⟨true, home⟩ here t := by
  induction t generalizing here with
  | nil => cases h
  | cons c cs ih =>
      rw [replaceTilde]
      rcases List.mem_cons.mp h with rfl | hrest
      · simp
      · split
        · exact List.mem_append_right _ (ih hrest _)
        · exact List.mem_cons_of_mem _ (ih hrest _)

theorem explicitJs_of_set {k : Text} (hassigned : (assigned host files k).isSome)
    (hset : truthy (content (env k)) = true) (hown : k ∉ shellOwned) :
    explicitJs host env files k = (content (env k)).map (Config.expand host.toHost) := by
  have hcond : ((assigned host files k).isSome && truthy (content (env k)) &&
      decide (k ∉ shellOwned)) = true := by
    rw [hassigned, hset, decide_eq_true hown]
    rfl
  exact if_pos hcond

theorem explicitJs_of_not_set {k : Text}
    (h : ¬ ((assigned host files k).isSome ∧ truthy (content (env k)) = true ∧ k ∉ shellOwned)) :
    explicitJs host env files k = assigned host files k := by
  refine if_neg fun hcond => h ?_
  obtain ⟨hboth, hown⟩ := Bool.and_eq_true_iff.mp hcond
  obtain ⟨hassigned, hset⟩ := Bool.and_eq_true_iff.mp hboth
  exact ⟨hassigned, hset, of_decide_eq_true hown⟩

theorem explicit_of_owned (template : Template) {k : Text} (hown : k ∈ shellOwned) :
    explicit host template env files k = (parse host.toHost template (content files.devnet) k).or
      (parse host.toHost template (content files.example_) k) := by
  refine if_neg fun hcond => ?_
  obtain ⟨hboth, -⟩ := Bool.and_eq_true_iff.mp hcond
  exact of_decide_eq_true (Bool.and_eq_true_iff.mp hboth).1 hown

theorem explicit_of_set {k : Text} (hassigned : (assigned host files k).isSome)
    (hset : truthy (content (env k)) = true) (hown : k ∉ shellOwned) :
    explicit host ⟨true, host.home⟩ env files k =
      (content (env k)).map (expand host.toHost ⟨true, host.home⟩) := by
  have hcond : (decide (k ∉ shellOwned) && truthy (content (env k)) &&
      (assigned host files k).isSome) = true := by
    rw [hassigned, hset, decide_eq_true hown]
    rfl
  rw [explicit, parse_eq, parse_eq]
  exact if_pos hcond

/-- Filling in the blanks leaves an explicit value alone, whichever directory the rest comes from. -/
theorem filled_of_truthy {files : Text → Option GeneratedFiles} {dir : Text} {start cfg : Env}
    {generated : GeneratedFiles → Env}
    (hload : (if dir = [] then none else (files dir).map fun g => fillBlanks start (generated g)) = some cfg)
    {k : Text} (h : truthy (start k) = true) : cfg k = start k := by
  split at hload
  · cases hload
  · obtain ⟨g, -, rfl⟩ := Option.map_eq_some_iff.mp hload
    exact fillBlanks_of_truthy h _

/-- The configuration has the explicit value wherever there is one. -/
theorem loadJs_of_truthy {cfg : Env} (hload : loadJs host env files = some cfg) {k : Text}
    (h : truthy (explicitJs host env files k) = true) : cfg k = explicitJs host env files k := by
  rw [loadJs_eq] at hload
  exact filled_of_truthy hload h

theorem load_of_truthy {template : Template} (htemplate : tildeTemplate host.home = some template)
    {cfg : Env} (hload : load host env files = some cfg) {k : Text}
    (h : truthy (explicit host template env files k) = true) :
    cfg k = explicit host template env files k := by
  rw [load, htemplate] at hload
  exact filled_of_truthy hload h

theorem truthy_of_dangles {k : Text} {value : PlainText} (hvalue : env k = some value)
    (hdangles : dangles host.toHost value.val = true) : truthy (content (env k)) = true := by
  rw [hvalue]
  refine truthy_iff.mpr fun hnil => ?_
  have hnewline := mem_of_dangling hdangles
  rw [show value.val = [] from hnil] at hnewline
  cases hnewline

theorem load_ne (hdigit : host.home.head?.any Char.isDigit = false) (hhome : host.home ≠ ['~'])
    {k : Text} {value : PlainText} (hassigned : (assigned host files k).isSome) (hown : k ∉ shellOwned)
    (hvalue : env k = some value) (hdangles : dangles host.toHost value.val = true) {cfg : Env}
    (hload : loadJs host env files = some cfg) : load host env files ≠ some cfg := by
  intro hpy
  have hnewline := mem_of_dangling hdangles
  have hset := truthy_of_dangles hvalue hdangles
  have hjsValue : explicitJs host env files k = some (Config.expand host.toHost value.val) := by
    rw [explicitJs_of_set hassigned hset hown, hvalue]
    rfl
  have hpyValue : explicit host ⟨true, host.home⟩ env files k =
      some (expand host.toHost ⟨true, host.home⟩ value.val) := by
    rw [explicit_of_set hassigned hset hown, hvalue]
    rfl
  have hjsKey : cfg k = some (Config.expand host.toHost value.val) := by
    rw [← hjsValue]
    apply loadJs_of_truthy hload
    rw [hjsValue]
    exact truthy_iff.mpr (List.ne_nil_of_mem (newline_mem_replaceTildeJs hnewline _ _))
  have hpyKey : cfg k = some (expand host.toHost ⟨true, host.home⟩ value.val) := by
    rw [← hpyValue]
    apply load_of_truthy (tildeTemplate_eq hdigit) hpy
    rw [hpyValue]
    exact truthy_iff.mpr (List.ne_nil_of_mem (newline_mem_replaceTilde hnewline _ _))
  rcases (expand_eq_iff host value.property).mp (Option.some.inj (hpyKey.symm.trans hjsKey)) with
    hfalse | htilde
  · rw [hdangles] at hfalse
    cases hfalse
  · exact hhome htilde

end Loads

/-! ## A file for a key -/

section Trial

variable {k : Text} {c : Char}

theorem isPlainChar_of_isKeyChar (hc : isKeyChar c = true) : isPlainChar c = true := by
  have hrange : 32 ≤ c.toNat ∧ c.toNat ≤ 126 := by
    simp only [isKeyChar, Bool.or_eq_true, Bool.and_eq_true, decide_eq_true_eq, beq_iff_eq] at hc
    omega
  simp [isPlainChar, isPrintable, hrange]

/-- A line that assigns one character to a key. -/
def keyLine (k : Text) (c : Char) : Text := k ++ ['=', c]

theorem matchLine_keyLine (hk : IsKey k) (hc : Config.isSpace c = false) :
    Config.matchLine (keyLine k c) = some (k, [c]) := by
  have hterm : isLineTerminator c = false := by
    rw [Bool.eq_false_iff]
    intro hline
    simp only [isLineTerminator, List.mem_cons, List.not_mem_nil, or_false, decide_eq_true_eq] at hline
    simp only [Config.isSpace, List.mem_cons, List.not_mem_nil, or_false, Bool.or_eq_false_iff,
      decide_eq_false_iff_not] at hc
    omega
  rw [keyLine, matchLine_key hk]
  simp [dropTrailing, hc, hterm]

/-- `DEVNET_DIR` is the root directory, and `k` the home directory. -/
def trialText (k : Text) : Text :=
  ['\n'].intercalate [keyLine "DEVNET_DIR".toList '/', keyLine k '~', []]

theorem isKey_devnetDir : IsKey "DEVNET_DIR".toList := isKey_of_all (by decide) (by decide)

theorem newline_notMem_keyLine (hk : IsKey k) (hc : c ≠ '\n') : '\n' ∉ keyLine k c := by
  intro h
  rcases List.mem_append.mp h with hkey | hrest
  · exact absurd (hk.2 _ hkey) (by decide)
  · simp only [List.mem_cons, List.not_mem_nil, or_false] at hrest
    rcases hrest with h | h
    · exact absurd h (by decide)
    · exact hc h.symm

theorem plain_keyLine (hk : IsKey k) (hc : isPlainChar c = true) :
    ∀ d ∈ keyLine k c, isPlainChar d = true := by
  intro d hd
  rcases List.mem_append.mp hd with hkey | hrest
  · exact isPlainChar_of_isKeyChar (hk.2 d hkey)
  · simp only [List.mem_cons, List.not_mem_nil, or_false] at hrest
    rcases hrest with rfl | rfl
    · decide
    · exact hc

theorem splitOn_trialText (hk : IsKey k) :
    (trialText k).splitOn '\n' = [keyLine "DEVNET_DIR".toList '/', keyLine k '~', []] := by
  apply List.splitOn_intercalate
  · intro line hline
    simp only [List.mem_cons, List.not_mem_nil, or_false] at hline
    rcases hline with rfl | rfl | rfl
    · exact newline_notMem_keyLine isKey_devnetDir (by decide)
    · exact newline_notMem_keyLine hk (by decide)
    · exact List.not_mem_nil
  · simp

theorem plain_trialText (hk : IsKey k) : ∀ d ∈ trialText k, isPlainChar d = true := by
  intro d hd
  have hdir := plain_keyLine isKey_devnetDir (by decide : isPlainChar '/' = true)
  have hkey := plain_keyLine hk (by decide : isPlainChar '~' = true)
  simp only [trialText, List.intercalate, List.intersperse, List.flatten_cons, List.flatten_nil,
    List.mem_append, List.mem_singleton, List.not_mem_nil, or_false] at hd
  rcases hd with h | rfl | h | rfl
  · exact hdir d h
  · decide
  · exact hkey d h
  · decide

variable (host : PlainHost)

theorem assign_keyLine (hk : IsKey k) (hc : isPlainChar c = true) (hspace : Config.isSpace c = false)
    (template : Template) (out : Env) :
    assign host.toHost template out (keyLine k c) =
      Function.update out k (some (expand host.toHost template [c])) := by
  have hplain := plain_keyLine hk hc
  have hhead : (trim (keyLine k c)).head? ≠ some '#' := head?_trim_key hk [c]
  rw [assign, strip_eq hplain, if_neg hhead, matchLine_eq hplain, matchLine_keyLine hk hspace]

theorem substituteVars_of_notMem {value : Text} (h : '$' ∉ value) :
    substituteVars host.toHost value = value := by
  have hroot : replaceVar "$DEVNET_ROOT".toList host.root 0 value = value := replaceVar_of_notMem h
  have hhome : replaceVar "$HOME".toList host.home 0 value = value := replaceVar_of_notMem h
  rw [substituteVars, hroot, hhome]

theorem expand_slash (template : Template) : expand host.toHost template ['/'] = ['/'] := by
  rw [expand, substituteVars_of_notMem host (by decide)]
  simp [replaceTilde]

theorem expand_tilde (template : Template) : expand host.toHost template ['~'] = template.text := by
  rw [expand, substituteVars_of_notMem host (by decide)]
  simp [replaceTilde, tildeEnds]

/-- The file, as a map. -/
theorem parse_trialText (hk : IsKey k) (template : Template) :
    parse host.toHost template (some (trialText k)) =
      Function.update (Function.update (fun _ => none) "DEVNET_DIR".toList (some ['/'])) k
        (some template.text) := by
  simp only [parse, fileLines, splitOn_trialText hk]
  show assign _ _ (assign _ _ _ (keyLine _ '/' ++ ['\n'])) (keyLine k '~' ++ ['\n']) = _
  rw [assign_newline_eq, assign_newline_eq,
    assign_keyLine host isKey_devnetDir (by decide) (by decide),
    assign_keyLine host hk (by decide) (by decide), expand_slash, expand_tilde]

/-- Just that file, and every directory exists. -/
def trialFiles (hk : IsKey k) : ConfigFiles where
  example_ := some ⟨trialText k, plain_trialText hk⟩
  devnet := none
  dirs := fun _ => some ⟨none, none, none⟩

theorem assigned_trialFiles (hk : IsKey k) :
    assigned host (trialFiles hk) =
      Function.update (Function.update (fun _ => none) "DEVNET_DIR".toList (some ['/'])) k
        (some host.home) :=
  (parse_eq host (some ⟨trialText k, plain_trialText hk⟩)).symm.trans (parse_trialText host hk _)

variable {host} {env : ProcessEnv}

/-- An environment that one load takes its `DEVNET_DIR` from names a directory for every load. -/
theorem expand_devnetDir_ne_nil {files : ConfigFiles} {cfg : Env}
    (hload : loadJs host env files = some cfg)
    (hset : truthy (content (env "DEVNET_DIR".toList)) = true) :
    ((content (env "DEVNET_DIR".toList)).map (Config.expand host.toHost)).getD [] ≠ [] := by
  intro hnil
  rw [loadJs_eq] at hload
  simp only at hload
  split at hload
  · cases hload
  · next hdir =>
      apply hdir
      by_cases hassigned : (assigned host files "DEVNET_DIR".toList).isSome
      · rw [explicitJs_of_set hassigned hset (by decide), hnil]
      · rw [explicitJs_of_not_set fun h => hassigned h.1,
          Option.not_isSome_iff_eq_none.mp hassigned]
        rfl

/-- If any files load, these do. -/
theorem exists_loadJs_trialFiles (hk : IsKey k)
    (hany : ∃ files cfg, loadJs host env files = some cfg)
    (hkset : k = "DEVNET_DIR".toList → truthy (content (env k)) = true) :
    ∃ cfg, loadJs host env (trialFiles hk) = some cfg := by
  obtain ⟨files, cfg, hload⟩ := hany
  have hdir : (explicitJs host env (trialFiles hk) "DEVNET_DIR".toList).getD [] ≠ [] := by
    by_cases hset : truthy (content (env "DEVNET_DIR".toList)) = true
    · have hassigned : (assigned host (trialFiles hk) "DEVNET_DIR".toList).isSome := by
        rw [assigned_trialFiles]
        by_cases hkd : k = "DEVNET_DIR".toList
        · subst hkd
          rw [Function.update_self]
          rfl
        · rw [Function.update_of_ne (Ne.symm hkd), Function.update_self]
          rfl
      rw [explicitJs_of_set hassigned hset (by decide)]
      exact expand_devnetDir_ne_nil hload hset
    · have hkd : k ≠ "DEVNET_DIR".toList := by
        rintro rfl
        exact hset (hkset rfl)
      rw [explicitJs_of_not_set fun h => hset h.2.1, assigned_trialFiles,
        Function.update_of_ne hkd.symm, Function.update_self]
      exact List.cons_ne_nil _ _
  rw [loadJs_eq]
  simp only [if_neg hdir]
  exact ⟨_, rfl⟩

/-- Where the home directory starts with a digit, the template is not what it was meant to be. -/
theorem text_ne_of_tildeTemplate {home : Text} {template : Template}
    (hdigit : home.head?.any Char.isDigit = true) (h : tildeTemplate home = some template) :
    template.text ≠ [] ∧ template.text ≠ home := by
  unfold tildeTemplate at h
  rw [if_pos hdigit] at h
  split at h
  · split at h
    · obtain rfl := Option.some.inj h
      refine ⟨List.cons_ne_nil _ _, ?_⟩
      intro heq
      have hlength := congrArg List.length heq
      simp at hlength
    · cases h
  · cases h

theorem isKey_user : IsKey "USER".toList := isKey_of_all (by decide) (by decide)

theorem load_ne_of_digit (hdigit : host.home.head?.any Char.isDigit = true) {cfg : Env}
    (hload : loadJs host env (trialFiles isKey_user) = some cfg) :
    load host env (trialFiles isKey_user) ≠ some cfg := by
  intro hpy
  -- `USER` belongs to the shell: only the file counts
  have howned : "USER".toList ∈ shellOwned := by decide
  have hhome : host.home ≠ [] := by
    intro hnil
    rw [hnil] at hdigit
    cases hdigit
  have hjs : explicitJs host env (trialFiles isKey_user) "USER".toList = some host.home := by
    rw [explicitJs_of_not_set fun h => h.2.2 howned, assigned_trialFiles, Function.update_self]
  have hjsKey : cfg "USER".toList = some host.home := by
    rw [← hjs]
    apply loadJs_of_truthy hload
    rw [hjs]
    exact truthy_iff.mpr hhome
  cases htemplate : tildeTemplate host.home with
  | none =>
      rw [load, htemplate] at hpy
      cases hpy
  | some template =>
      obtain ⟨hne, hdiffers⟩ := text_ne_of_tildeTemplate hdigit htemplate
      have hvalue : explicit host template env (trialFiles isKey_user) "USER".toList =
          some template.text := by
        rw [explicit_of_owned template howned]
        show (parse host.toHost template (some (trialText _))) _ = _
        rw [parse_trialText host isKey_user, Function.update_self]
      have hpyKey : cfg "USER".toList = some template.text := by
        rw [← hvalue]
        apply load_of_truthy htemplate hpy
        rw [hvalue]
        exact truthy_iff.mpr hne
      exact hdiffers (Option.some.inj (hpyKey.symm.trans hjsKey))

end Trial

/-- **The two layers agree.** Where the home directory does not start with a digit, `config.py` loads what
`config.js` loads exactly when no key that the files assign, the shell's own apart, is set in the
environment to a value that dangles (or the home directory is itself a tilde). For one home directory and
one environment, with which anything can be loaded at all, they agree on ALL files exactly when the home
directory does not start with a digit and no key is set to such a value. -/
theorem configs_agree_iff (host : PlainHost) (env : ProcessEnv) :
    (host.home.head?.any Char.isDigit = false → ∀ files cfg, loadJs host env files = some cfg →
      (load host env files = some cfg ↔ host.home = ['~'] ∨ NoneDangles host env files)) ∧
    ((∃ files cfg, loadJs host env files = some cfg) →
      ((∀ files cfg, loadJs host env files = some cfg → load host env files = some cfg) ↔
        host.home.head?.any Char.isDigit = false ∧ (host.home = ['~'] ∨
          ∀ k value, IsKey k → k ∉ shellOwned → env k = some value →
            dangles host.toHost value.val = false))) := by
  have hfiles : host.home.head?.any Char.isDigit = false → ∀ files cfg,
      loadJs host env files = some cfg →
        (load host env files = some cfg ↔ host.home = ['~'] ∨ NoneDangles host env files) := by
    intro hdigit files cfg hload
    constructor
    · intro hpy
      by_contra hnot
      obtain ⟨hhome, hnone⟩ := not_or.mp hnot
      apply hnone
      intro k value hassigned hown hvalue
      rw [Bool.eq_false_iff]
      intro hdangles
      exact load_ne hdigit hhome hassigned hown hvalue hdangles hload hpy
    · intro hcond
      rw [load_eq hdigit hcond, hload]
  refine ⟨hfiles, fun hany => ⟨?_, ?_⟩⟩
  · intro hall
    have hdigit : host.home.head?.any Char.isDigit = false := by
      rw [Bool.eq_false_iff]
      intro hdigit
      obtain ⟨cfg, hload⟩ := exists_loadJs_trialFiles isKey_user hany fun h => absurd h (by decide)
      exact load_ne_of_digit hdigit hload (hall _ cfg hload)
    refine ⟨hdigit, ?_⟩
    by_contra hnot
    obtain ⟨hhome, hsome⟩ := not_or.mp hnot
    apply hsome
    intro k value hk hown hvalue
    rw [Bool.eq_false_iff]
    intro hdangles
    have hset := truthy_of_dangles hvalue hdangles
    obtain ⟨cfg, hload⟩ := exists_loadJs_trialFiles hk hany fun _ => hset
    have hassigned : (assigned host (trialFiles hk) k).isSome := by
      rw [assigned_trialFiles, Function.update_self]
      rfl
    exact load_ne hdigit hhome hassigned hown hvalue hdangles hload (hall _ cfg hload)
  · rintro ⟨hdigit, hcond⟩ files cfg hload
    refine (hfiles hdigit files cfg hload).mpr (hcond.imp_right ?_)
    intro hnone k value hassigned hown hvalue
    exact hnone k value (isKey_of_assigned hassigned) hown hvalue

/-! ### One key -/

/-- A host, an environment that sets one key, and files that assign it. -/
def someHost : PlainHost where
  root := "/r".toList
  home := "/h".toList
  root_plain := by decide
  home_plain := by decide
  root_printable := by decide
  home_printable := by decide
  root_unescaped := by decide
  home_unescaped := by decide

def setAckCmd (value : PlainText) : ProcessEnv := fun k =>
  if k = "ACK_CMD".toList then some value else none

theorem isKey_ackCmd : IsKey "ACK_CMD".toList := isKey_of_all (by decide) (by decide)

/-- The home directory itself, as it is in the files. -/
theorem configs_agree_home :
    ∃ cfg, loadJs someHost (setAckCmd (plain "~/ack" (by decide)))
        (trialFiles isKey_ackCmd) = some cfg ∧
      load someHost (setAckCmd (plain "~/ack" (by decide)))
        (trialFiles isKey_ackCmd) = some cfg := by
  have hloads : (loadJs someHost (setAckCmd (plain "~/ack" (by decide)))
      (trialFiles isKey_ackCmd)).isSome := by
    decide
  obtain ⟨cfg, hload⟩ := Option.isSome_iff_exists.mp hloads
  refine ⟨cfg, hload, ((configs_agree_iff someHost _).1 (by decide) _ cfg hload).mpr (Or.inr ?_)⟩
  intro k value _ _ hvalue
  rw [setAckCmd] at hvalue
  split at hvalue
  · obtain rfl := Option.some.inj hvalue
    decide
  · cases hvalue

/-- A home directory with a newline after it is expanded by `config.py` only. -/
theorem tilde_newline_differs :
    ((loadJs someHost (setAckCmd (plain "~\n" (by decide)))
        (trialFiles isKey_ackCmd)).map fun cfg => cfg "ACK_CMD".toList) = some (some "~\n".toList) ∧
      ((load someHost (setAckCmd (plain "~\n" (by decide)))
        (trialFiles isKey_ackCmd)).map fun cfg => cfg "ACK_CMD".toList) =
          some (some "/h\n".toList) := by
  decide

/-! ## What the scripts write -/

section Written

theorem plain_upserts {updates : List (Text × Text)} {lines : List Text}
    (hupdates : ∀ kv ∈ updates, ∀ c ∈ kv.1 ++ '=' :: kv.2, isPlainChar c = true)
    (hlines : ∀ l ∈ lines, ∀ c ∈ l, isPlainChar c = true) :
    ∀ l ∈ updates.foldl upsertLine lines, ∀ c ∈ l, isPlainChar c = true := by
  induction updates generalizing lines with
  | nil => exact hlines
  | cons kv updates ih =>
      refine ih (fun kv' h => hupdates kv' (List.mem_cons_of_mem _ h)) fun l hl => ?_
      rcases List.mem_append.mp hl with hold | hnew
      · exact hlines l (List.mem_filter.mp hold).1
      · cases List.mem_singleton.mp hnew
        exact hupdates kv List.mem_cons_self

theorem plain_intercalate {lines : List Text} (h : ∀ l ∈ lines, ∀ c ∈ l, isPlainChar c = true) :
    ∀ c ∈ ['\n'].intercalate lines, isPlainChar c = true := by
  induction lines with
  | nil => simp [List.intercalate]
  | cons l lines ih =>
      have hrest := ih fun l hl => h l (List.mem_cons_of_mem _ hl)
      have hl := h l List.mem_cons_self
      cases lines with
      | nil => simpa [List.intercalate] using hl
      | cons l' lines =>
          intro c hc
          have hc : c ∈ l ∨ c = '\n' ∨ c ∈ ['\n'].intercalate (l' :: lines) := by
            simpa [List.intercalate] using hc
          rcases hc with hc | rfl | hc
          · exact hl c hc
          · decide
          · exact hrest c hc

/-- An update as the scripts make them: a value that is read back as it is. -/
def Writable (kv : Text × Text) : Prop := IsKey kv.1 ∧ IsPlain kv.2 ∧ ∀ c ∈ kv.2, isPrintable c = true

theorem plain_upsertDeployEnv (file : Option PlainText) {updates : List (Text × Text)}
    (hupdates : ∀ kv ∈ updates, Writable kv) :
    ∀ c ∈ upsertDeployEnv (content file) updates, isPlainChar c = true := by
  intro c hc
  rcases List.mem_append.mp hc with hline | hend
  · refine plain_intercalate (fun l hl => plain_upserts ?_ ?_ l (List.mem_filter.mp hl).1) c hline
    · intro kv hkv d hd
      obtain ⟨hkey, -, hvalue⟩ := hupdates kv hkv
      rcases List.mem_append.mp hd with hd | hd
      · exact isPlainChar_of_isKeyChar (hkey.2 d hd)
      · rcases List.mem_cons.mp hd with rfl | hd
        · decide
        · exact isPlainChar_of_isPrintable (hvalue d hd)
    · rcases file with - | ⟨text, htext⟩
      · simp [content]
      · exact fun l hl d hd => htext d (mem_of_mem_splitOn hl d hd).2
  · cases List.mem_singleton.mp hend
    decide

/-- The file after some writes. -/
def written (file : Option Text) (writes : List (List (Text × Text))) : Option Text :=
  writes.foldl (fun file updates => some (upsertDeployEnv file updates)) file

/-- **What `upsertDeployEnv` writes, `config.py` reads.** After any writes to a file that was there or not, the
Python parser finds what it would have found before, with all updates on top. -/
theorem python_reads_written (host : PlainHost) (hdigit : host.home.head?.any Char.isDigit = false)
    (file : Option PlainText) (writes : List (List (Text × Text)))
    (hwrites : ∀ updates ∈ writes, ∀ kv ∈ updates, Writable kv) :
    ∃ template, tildeTemplate host.home = some template ∧
      parse host.toHost template (written (content file) writes) =
        writes.flatten.foldl setKey (parse host.toHost template (content file)) := by
  refine ⟨_, tildeTemplate_eq hdigit, ?_⟩
  induction writes generalizing file with
  | nil => rfl
  | cons updates writes ih =>
      have hupdates := hwrites updates List.mem_cons_self
      have hplain := plain_upsertDeployEnv file hupdates
      have hrest := ih (some ⟨_, hplain⟩) fun u hu => hwrites u (List.mem_cons_of_mem _ hu)
      have hread : parse host.toHost ⟨true, host.home⟩ (some (upsertDeployEnv (content file) updates)) =
          updates.foldl setKey (parse host.toHost ⟨true, host.home⟩ (content file)) := by
        rw [parse_eq host file, ← parseEnvFile_upsertDeployEnv (content file) updates
          fun kv hkv => ⟨(hupdates kv hkv).1, (hupdates kv hkv).2.1⟩]
        exact parse_eq host (some ⟨_, hplain⟩)
      rw [List.flatten_cons, List.foldl_append, ← hread]
      exact hrest

/-- A file that is not there yet, and two writes of one key. -/
theorem python_reads_written_twice : ∃ template, tildeTemplate someHost.home = some template ∧
    parse someHost.toHost template (written none [[(['K'], ['1'])], [(['K'], ['2'])]]) ['K'] = some ['2'] := by
  obtain ⟨template, htemplate, hread⟩ := python_reads_written someHost (by decide) none
    [[(['K'], ['1'])], [(['K'], ['2'])]] (by simp [Writable, IsKey, IsPlain]; decide)
  exact ⟨template, htemplate, (congrFun hread _).trans rfl⟩

end Written

end PqcMigration.Devnet.ConfigPy
