/-
# PqcMigration.MigrationCost.LimitsAgree — when `txSizeLimit` and `node_limits` see the same limits.

A line of ordinary characters that the regular expression matches is read by both programs, and then they
read the same number exactly if nothing but digits stands between the equals sign and the end, or the next
equals sign, and the number is a double (`plainLine_iff`). Underscores between the digits make Python's
number at least ten times the other one.

The last line that either of them reads decides. If it is not such a line, one program passes over it or
takes it for other lines, and has its number from elsewhere; the two are then equal by chance only.
`limits_agree` is about all texts, whether TOML or not.
-/
import PqcMigration.MigrationCost.NodeLimits

namespace PqcMigration.MigrationCost.NodeLimits

open Lib Lib.Lines
open Devnet.Config (dropTrailing dropTrailing_begins head?_any_of_prefix head?_dropWhile_any)
open Devnet.ConfigPy (strip)

/-! ## One line, read by both -/

/-- A character that ends no line in Python, and is white space for both programs or for neither. -/
def isOrdinary (c : Char) : Bool := !isBreak c && Devnet.Config.isSpace c == Devnet.ConfigPy.isSpace c

/-- What stands between the first equals sign and the next, or the end. -/
def numberText (line : Text) : Text := strip ((line.splitOn '=')[1]?.getD [])

/-- The line is ordinary, sets the key in the way the regular expression asks for, and to nothing but digits,
of a number that is a double. -/
def PlainLine (key raw : Text) : Prop :=
  raw.all isOrdinary = true ∧ matchKey key (jsCode raw) ≠ none ∧
    (numberText (jsCode raw)).all Char.isDigit = true ∧
    toNumber (decimal (numberText (jsCode raw))) = some (decimal (numberText (jsCode raw)))

section Line

variable {digits : Digits} {key raw line ds : Text}

theorem strip_eq_trim {t : Text} (h : ∀ c ∈ t, isOrdinary c = true) : strip t = Devnet.Config.trim t := by
  have hspace : ∀ c ∈ t, Devnet.ConfigPy.isSpace c = Devnet.Config.isSpace c := fun c hc => by
    have := h c hc
    simp only [isOrdinary, Bool.and_eq_true, beq_iff_eq] at this
    exact this.2.symm
  unfold strip Devnet.Config.trim
  rw [Devnet.ConfigPy.dropWhile_congr hspace]
  exact Devnet.ConfigPy.dropTrailing_congr fun c hc => hspace c ((List.dropWhile_suffix _).mem hc)

theorem pieces_of_ordinary (h : ∀ c ∈ raw, isOrdinary c = true) : raw.splitOnP isBreak = [raw] := by
  refine splitOnP_of_none fun c hc => ?_
  have := h c hc
  simp only [isOrdinary, Bool.and_eq_true, Bool.not_eq_true'] at this
  exact this.1

theorem pyReadAll_of_ordinary (h : ∀ c ∈ raw, isOrdinary c = true) :
    pyReadAll digits key raw = pyRead digits key raw := by
  rw [pyReadAll, pieces_of_ordinary h, lastRead_singleton]

/-- The parts of a line that the regular expression matches. -/
structure Parts (key line ds : Text) where
  blanks : Text
  blanks' : Text
  tail : Text
  line_eq : line = key ++ (blanks ++ '=' :: (blanks' ++ (ds ++ tail)))
  blank : ∀ c ∈ blanks, Devnet.Config.isSpace c = true
  blank' : ∀ c ∈ blanks', Devnet.Config.isSpace c = true
  digit : ∀ c ∈ ds, c.isDigit = true
  nonempty : ds ≠ []
  stop : tail.head?.any Char.isDigit = false

theorem exists_parts (h : matchKey key line = some ds) : Nonempty (Parts key line ds) := by
  unfold matchKey at h
  split at h
  · next hpre =>
      obtain ⟨t, rfl⟩ := List.isPrefixOf_iff_prefix.mp hpre
      rw [List.drop_left] at h
      split at h
      · next rest hrest =>
          dsimp only at h
          split at h
          · cases h
          · next hne =>
              cases h
              refine ⟨t.takeWhile Devnet.Config.isSpace, rest.takeWhile Devnet.Config.isSpace,
                (rest.dropWhile Devnet.Config.isSpace).dropWhile Char.isDigit, ?_, ?_, ?_, ?_, hne, ?_⟩
              · rw [List.takeWhile_append_dropWhile, List.takeWhile_append_dropWhile, ← hrest,
                  List.takeWhile_append_dropWhile]
              · exact fun c hc => List.mem_takeWhile_imp hc
              · exact fun c hc => List.mem_takeWhile_imp hc
              · exact fun c hc => List.mem_takeWhile_imp hc
              · exact head?_dropWhile_any _ _
      · cases h
  · cases h

theorem digit_lt {c : Char} (h : c.isDigit = true) : 48 ≤ c.toNat ∧ c.toNat ≤ 57 := by
  simp only [Char.isDigit, Bool.and_eq_true, decide_eq_true_eq] at h
  exact h

theorem isSpace_of_digit {c : Char} (h : c.isDigit = true) : Devnet.ConfigPy.isSpace c = false := by
  obtain ⟨hlo, hhi⟩ := digit_lt h
  unfold Devnet.ConfigPy.isSpace
  simp
  omega

theorem dropTrailing_append_of_not {p : Char → Bool} {t : Text} (h : ∀ c ∈ t, p c = false) (u : Text) :
    dropTrailing p (t ++ u) = t ++ dropTrailing p u := by
  have ht : t.reverse.dropWhile p = t.reverse :=
    Devnet.Config.dropWhile_eq_self_of_forall fun c hc => h c (List.mem_reverse.mp hc)
  unfold dropTrailing
  rw [List.reverse_append, List.dropWhile_append, ht]
  split
  · next hu => rw [List.isEmpty_iff.mp hu, List.reverse_reverse, List.reverse_nil, List.append_nil]
  · rw [List.reverse_append, List.reverse_reverse]

/-- After the digits that the regular expression takes comes nothing, or something else. -/
theorem Parts.numberText_eq (P : Parts key line ds) (hkey : '=' ∉ key)
    (hord : ∀ c ∈ line, isOrdinary c = true) :
    ∃ t x, (line.splitOn '=')[1]? = some t ∧ strip t = ds ++ x ∧ x.head?.any Char.isDigit = false := by
  obtain ⟨blanks, blanks', tail, rfl, hblank, hblank', hdigit, hne, hstop⟩ := P
  have hsep : ∀ c ∈ key ++ blanks, (c == '=') = false := by
    intro c hc
    rw [beq_eq_false_iff_ne]
    rintro rfl
    obtain hc | hc := List.mem_append.mp hc
    · exact hkey hc
    · exact absurd (hblank _ hc) (by decide)
  have hfield : ((key ++ (blanks ++ '=' :: (blanks' ++ (ds ++ tail)))).splitOn '=')[1]? =
      some ((blanks' ++ (ds ++ tail)).takeWhile fun c => !(c == '=')) := by
    rw [← List.append_assoc, List.splitOn, List.splitOnP_append_cons_of_forall_mem hsep _ rfl,
      List.getElem?_cons_succ, ← List.head?_eq_getElem?, head?_splitOnP]
  have hnoteq : ∀ c ∈ blanks' ++ ds, (!(c == '=')) = true := by
    intro c hc
    rw [Bool.not_eq_true', beq_eq_false_iff_ne]
    rintro rfl
    obtain hc | hc := List.mem_append.mp hc
    · exact absurd (hblank' _ hc) (by decide)
    · exact absurd (hdigit _ hc) (by decide)
  rw [hfield, ← List.append_assoc, List.takeWhile_append_of_pos hnoteq, List.append_assoc]
  refine ⟨_, dropTrailing Devnet.ConfigPy.isSpace (tail.takeWhile fun c => !(c == '=')), rfl, ?_, ?_⟩
  · have hspace : ∀ c ∈ blanks', Devnet.ConfigPy.isSpace c = true := by
      intro c hc
      have hord := hord c (by simp [hc])
      simp only [isOrdinary, Bool.and_eq_true, beq_iff_eq] at hord
      rw [← hord.2, hblank' c hc]
    have hfirst : ∀ u, (ds ++ u).dropWhile Devnet.ConfigPy.isSpace = ds ++ u := by
      intro u
      obtain ⟨d, ds', rfl⟩ := List.exists_cons_of_ne_nil hne
      rw [List.cons_append, List.dropWhile_cons_of_neg]
      simp [isSpace_of_digit (hdigit d List.mem_cons_self)]
    rw [strip, List.dropWhile_append_of_pos hspace, hfirst]
    exact dropTrailing_append_of_not (fun c hc => isSpace_of_digit (hdigit c hc)) _
  · refine head?_any_of_prefix ?_ hstop
    exact (dropTrailing_begins _ _).trans (List.takeWhile_prefix _)

theorem intBody_digits (hdigit : ∀ c ∈ ds, c.isDigit = true) (hne : ds ≠ []) (afterDigit : Bool) (acc : ℕ)
    (x : Text) : intBody digits afterDigit acc (ds ++ x) =
      intBody digits true (ds.foldl (fun acc c => 10 * acc + (c.toNat - 48)) acc) x := by
  induction ds generalizing afterDigit acc with
  | nil => exact absurd rfl hne
  | cons c cs ih =>
      obtain ⟨hc, hcs⟩ := List.forall_mem_cons.mp hdigit
      have hlt : c.toNat < 128 := by
        have := digit_lt hc
        omega
      have hvalue : digits.value c = some (c.toNat - 48) := by rw [digits.ascii c hlt, if_pos hc]
      have hunder : c ≠ '_' := by
        rintro rfl
        exact absurd hc (by decide)
      rw [List.cons_append, intBody, if_neg hunder, hvalue, List.foldl_cons]
      cases cs with
      | nil => rfl
      | cons d cs => exact ih hcs (List.cons_ne_nil _ _) true _

/-- A digit more makes the number ten times what it was. -/
theorem intBody_ge {afterDigit : Bool} {acc r : ℕ} {x : Text} (h : intBody digits afterDigit acc x = some r) :
    acc ≤ r ∧ (x ≠ [] → 10 * acc ≤ r) := by
  induction x generalizing afterDigit acc with
  | nil =>
      unfold intBody at h
      split at h
      · cases h
        exact ⟨le_rfl, fun hne => absurd rfl hne⟩
      · cases h
  | cons c cs ih =>
      rw [intBody] at h
      split at h
      · split at h
        · obtain ⟨hle, hten⟩ := ih h
          have hne : cs ≠ [] := by
            rintro rfl
            cases h
          exact ⟨hle, fun _ => hten hne⟩
        · cases h
      · split at h
        · next d _ =>
            obtain ⟨hle, -⟩ := ih h
            exact ⟨by omega, fun _ => by omega⟩
        · cases h

theorem pyInt_digits {x : Text} {z : ℤ} (hdigit : ∀ c ∈ ds, c.isDigit = true) (hne : ds ≠ [])
    (h : pyInt digits (ds ++ x) = some z) :
    (x = [] → z = decimal ds) ∧ (x ≠ [] → ((10 * decimal ds : ℕ) : ℤ) ≤ z) := by
  obtain ⟨d, ds', rfl⟩ := List.exists_cons_of_ne_nil hne
  have hd := hdigit d List.mem_cons_self
  have hplus : d ≠ '+' := by
    rintro rfl
    exact absurd hd (by decide)
  have hminus : d ≠ '-' := by
    rintro rfl
    exact absurd hd (by decide)
  unfold pyInt at h
  split at h
  · cases h
  · rw [List.cons_append] at h
    dsimp only at h
    rw [if_neg hplus, if_neg hminus, ← List.cons_append, intBody_digits hdigit hne] at h
    obtain ⟨r, hr, rfl⟩ := Option.map_eq_some_iff.mp h
    constructor
    · rintro rfl
      cases hr
      rfl
    · intro hx
      exact Int.ofNat_le.mpr ((intBody_ge hr).2 hx)

/-! ### Doubles -/

theorem nearest_le (n e : ℕ) : nearest n e ≤ n / 2 ^ e + 1 := by
  unfold nearest
  dsimp only
  split
  · exact Nat.le_succ _
  · exact le_rfl

/-- Rounding is off by one unit in the last place at most, and that is not more than the number. -/
theorem toNumber_le {n w : ℕ} (h : toNumber n = some w) : w ≤ 2 * n := by
  unfold toNumber at h
  dsimp only at h
  split at h
  · cases h
    obtain rfl | hn := Nat.eq_zero_or_pos n
    · exact le_rfl
    have hunit : 2 ^ (n.log2 - 52) ≤ n :=
      (Nat.pow_le_pow_right (by decide) (Nat.sub_le _ _)).trans (Nat.log2_self_le hn.ne')
    calc nearest n (n.log2 - 52) * 2 ^ (n.log2 - 52)
        ≤ (n / 2 ^ (n.log2 - 52) + 1) * 2 ^ (n.log2 - 52) := Nat.mul_le_mul_right _ (nearest_le _ _)
      _ = n / 2 ^ (n.log2 - 52) * 2 ^ (n.log2 - 52) + 2 ^ (n.log2 - 52) := by rw [Nat.add_mul, Nat.one_mul]
      _ ≤ n + n := Nat.add_le_add (Nat.div_mul_le_self _ _) hunit
      _ = 2 * n := (Nat.two_mul n).symm
  · cases h

theorem notMem_key : ∀ key ∈ [bodyKey, txKey], '=' ∉ key := by decide

theorem pyCode_of_ordinary (hord : ∀ c ∈ raw, isOrdinary c = true) : pyCode raw = jsCode raw :=
  strip_eq_trim fun c hc => hord c ((List.takeWhile_prefix _).mem hc)

theorem mem_of_mem_jsCode {c : Char} (h : c ∈ jsCode raw) : c ∈ raw :=
  (List.takeWhile_prefix _).mem
    ((List.dropWhile_suffix _).mem (Devnet.ConfigPy.mem_of_mem_dropTrailing h))

theorem fieldValue_of_pyRead {z : ℤ} (h : pyRead digits key raw = some z) :
    fieldValue digits (pyCode raw) = .ok z := by
  unfold pyRead at h
  split at h
  · cases hvalue : fieldValue digits (pyCode raw) with
    | error e =>
        rw [hvalue] at h
        cases h
    | ok z' =>
        rw [hvalue] at h
        cases h
        rfl
  · cases h

theorem pyInt_of_fieldValue {t : Text} {z : ℤ} (ht : (line.splitOn '=')[1]? = some t)
    (h : fieldValue digits line = .ok z) : pyInt digits (strip t) = some z := by
  unfold fieldValue at h
  rw [ht] at h
  dsimp only at h
  split at h
  · cases h
  · next hint =>
      cases h
      exact hint

/-- What Python reads from a line that the regular expression matches: the digits of the match, and what
comes after them. -/
theorem number_of_match (hkey : key ∈ [bodyKey, txKey]) (hord : ∀ c ∈ raw, isOrdinary c = true)
    (P : Parts key (jsCode raw) ds) {z : ℤ} (hpy : pyRead digits key raw = some z) :
    ∃ x, numberText (jsCode raw) = ds ++ x ∧ x.head?.any Char.isDigit = false ∧
      pyInt digits (ds ++ x) = some z := by
  obtain ⟨t, x, hfield, hstrip, hstop⟩ :=
    P.numberText_eq (notMem_key key hkey) fun c hc => hord c (mem_of_mem_jsCode hc)
  refine ⟨x, ?_, hstop, ?_⟩
  · rw [numberText, hfield]
    exact hstrip
  · rw [← hstrip]
    refine pyInt_of_fieldValue hfield ?_
    rw [← pyCode_of_ordinary hord]
    exact fieldValue_of_pyRead hpy

/-- A line that both read: they read the same exactly if it is plain. -/
theorem plainLine_iff (hkey : key ∈ [bodyKey, txKey]) (hord : raw.all isOrdinary = true) {n : ℕ} {z : ℤ}
    (hjs : jsRead key raw = some n) (hpy : pyRead digits key raw = some z) (hn : n ≠ 0) :
    (toNumber n).map Int.ofNat = some z ↔ PlainLine key raw := by
  obtain ⟨ds, hmatch, rfl⟩ := Option.map_eq_some_iff.mp hjs
  obtain ⟨P⟩ := exists_parts hmatch
  obtain ⟨x, hnumber, hstop, hint⟩ := number_of_match hkey (List.all_eq_true.mp hord) P hpy
  obtain ⟨hnil, hmore⟩ := pyInt_digits P.digit P.nonempty hint
  unfold PlainLine
  rw [hnumber]
  constructor
  · intro heq
    obtain ⟨w, hw, rfl⟩ := Option.map_eq_some_iff.mp heq
    have hx : x = [] := by
      by_contra hx
      have hle : 10 * decimal ds ≤ w := Int.ofNat_le.mp (hmore hx)
      have := toNumber_le hw
      omega
    subst hx
    have hexact : w = decimal ds := Int.ofNat_inj.mp (hnil rfl)
    rw [List.append_nil]
    exact ⟨hord, Option.ne_none_iff_exists'.mpr ⟨ds, hmatch⟩, List.all_eq_true.mpr P.digit, hexact ▸ hw⟩
  · rintro ⟨-, -, hdigits, hexact⟩
    have hx : x = [] := by
      cases x with
      | nil => rfl
      | cons c cs =>
          have hc := List.all_eq_true.mp hdigits c (List.mem_append_right _ List.mem_cons_self)
          rw [List.head?_cons, Option.any_some, hc] at hstop
          cases hstop
    subst hx
    rw [List.append_nil] at hexact
    rw [hexact, hnil rfl]
    rfl

end Line

/-! ## The file -/

section File

variable {digits : Digits} {key : Text} {lines : List Text}

/-- The last line that either program reads for the key is plain. -/
def PlainLast (digits : Digits) (key : Text) (lines : List Text) : Prop :=
  ∃ before raw, Last (jsRead key) (pyReadAll digits key) lines before raw ∧ PlainLine key raw

/-- It has other characters than ordinary ones, or the regular expression does not match it. -/
def PassedOver (digits : Digits) (key : Text) (lines : List Text) : Prop :=
  ∃ before raw, Last (jsRead key) (pyReadAll digits key) lines before raw ∧
    (raw.all isOrdinary = false ∨ matchKey key (jsCode raw) = none)

/-- A line that the regular expression matches is read by Python too. -/
theorem exists_pyReadAll (hkey : key ∈ [bodyKey, txKey]) {raw : Text}
    (hcomplete : ∀ piece ∈ raw.splitOnP isBreak, Complete digits piece)
    (hord : ∀ c ∈ raw, isOrdinary c = true) {n : ℕ} (hjs : jsRead key raw = some n) :
    ∃ z, pyRead digits key raw = some z ∧ pyReadAll digits key raw = some z := by
  obtain ⟨ds, hmatch, -⟩ := Option.map_eq_some_iff.mp hjs
  have hpre : key <+: pyCode raw := by
    rw [pyCode_of_ordinary hord]
    exact prefix_of_matchKey hmatch
  have hpiece : raw ∈ raw.splitOnP isBreak := by
    rw [pieces_of_ordinary hord]
    exact List.mem_singleton_self raw
  obtain ⟨z, hz⟩ := Option.ne_none_iff_exists'.mp (hcomplete raw hpiece key hkey hpre)
  exact ⟨z, hz, by rw [pyReadAll_of_ordinary hord, hz]⟩

section Decides

variable (hkey : key ∈ [bodyKey, txKey])
  (hcomplete : ∀ raw ∈ lines, ∀ piece ∈ raw.splitOnP isBreak, Complete digits piece) {n : ℕ} {z : ℤ}
  (hjs : lastRead (jsRead key) lines = some n) (hn : toNumber n ≠ some 0)
  (hpy : lastRead (pyReadAll digits key) lines = some z)

include hkey hcomplete hjs hn hpy

/-- A last line that is ordinary and matched is read by both, and so decides. -/
theorem agree_iff_plainLine {before : List Text} {raw : Text}
    (hlast : Last (jsRead key) (pyReadAll digits key) lines before raw) (hord : raw.all isOrdinary = true)
    (hmatch : matchKey key (jsCode raw) ≠ none) :
    (toNumber n).map Int.ofNat = some z ↔ PlainLine key raw := by
  have hn : n ≠ 0 := by
    rintro rfl
    exact hn rfl
  obtain ⟨m, hm⟩ : ∃ m, jsRead key raw = some m :=
    Option.ne_none_iff_exists'.mp (mt Option.map_eq_none_iff.mp hmatch)
  have hmem : raw ∈ lines := by
    obtain ⟨after, rfl, -⟩ := hlast.split
    exact List.mem_append_right _ List.mem_cons_self
  obtain ⟨z', hz', hall⟩ := exists_pyReadAll hkey (hcomplete raw hmem) (List.all_eq_true.mp hord) hm
  have hleft := hlast.left
  have hright := hlast.right
  rw [hjs, hm, Option.some_or, Option.some.injEq] at hleft
  rw [hpy, hall, Option.some_or, Option.some.injEq] at hright
  subst hleft hright
  exact plainLine_iff hkey hord hm hz' hn

theorem agree_of_plainLast (hplain : PlainLast digits key lines) : (toNumber n).map Int.ofNat = some z := by
  obtain ⟨before, raw, hlast, hplain⟩ := hplain
  exact (agree_iff_plainLine hkey hcomplete hjs hn hpy hlast hplain.1 hplain.2.1).mpr hplain

theorem plainLast_or_passedOver (heq : (toNumber n).map Int.ofNat = some z) :
    PlainLast digits key lines ∨ PassedOver digits key lines := by
  have hread : lastRead (jsRead key) lines ≠ none := by
    rw [hjs]
    exact Option.some_ne_none n
  obtain ⟨before, raw, hlast⟩ := exists_last (g := pyReadAll digits key) hread
  cases hord : raw.all isOrdinary with
  | false => exact .inr ⟨before, raw, hlast, .inl hord⟩
  | true =>
      by_cases hmatch : matchKey key (jsCode raw) = none
      · exact .inr ⟨before, raw, hlast, .inr hmatch⟩
      · have hplain := (agree_iff_plainLine hkey hcomplete hjs hn hpy hlast hord hmatch).mp heq
        exact .inl ⟨before, raw, hlast, hplain⟩

end Decides

end File

/-- ASCII only. -/
def asciiDigits : Digits where
  value c := if c.isDigit then some (c.toNat - 48) else none
  ascii _ _ := rfl

def plainFile : Text :=
  "[rpc]\nmax_body_bytes = 1000000 # 1 MB\n[mempool]\nmax_tx_bytes = 1048576\n".toList

/-- TOML allows underscores between digits. -/
def separatedFile : Text :=
  "[rpc]\nmax_body_bytes = 1_000_000\n[mempool]\nmax_tx_bytes = 1048576\n".toList

end PqcMigration.MigrationCost.NodeLimits
