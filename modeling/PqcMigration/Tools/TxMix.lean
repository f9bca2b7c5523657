/-
# PqcMigration.Tools.TxMix — the message mix of `tools/storage_sim/main.go`.

`parseMix` reads `type:pct,type:pct,…` into a map from type to percentage and a list of the types in the
order they stand. `newSim` makes running totals of them and `pickMsg` draws by those. A type that stands
twice is twice in the list and once in the map, with the percentage it was given last: `mix_honoured_iff`
says when the draws are nevertheless what the string asks for.

Percentages are exact, and `strconv.ParseFloat` is any function to them.
-/
import PqcMigration.Lib.Draw
import PqcMigration.Lib.Script
import PqcMigration.Tools.StorageSim

namespace PqcMigration.Tools.StorageSim

open MeasureTheory
open PqcMigration.Lib
open PqcMigration.Lib.Draw

/-! ## `parseMix` -/

abbrev Text := List Char

/-- `unicode.IsSpace` -/
def isSpace (c : Char) : Bool :=
  let n := c.toNat
  (9 ≤ n && n ≤ 13) || n == 0x20 || n == 0x85 || n == 0xA0 || n == 0x1680 || (0x2000 ≤ n && n ≤ 0x200A) ||
    n == 0x2028 || n == 0x2029 || n == 0x202F || n == 0x205F || n == 0x3000

/-- `strings.TrimSpace` -/
def trimSpace (t : Text) : Text := ((t.dropWhile isSpace).reverse.dropWhile isSpace).reverse

/-- `strings.SplitN(t, ":", 2)`, when it gives two parts. -/
def cutColon : Text → Option (Text × Text)
  | [] => none
  | c :: t => if c = ':' then some ([], t) else (cutColon t).map fun kv => (c :: kv.1, kv.2)

/-- The keys of `MsgBodySizes`. -/
def Msg.ofName (name : Text) : Option Msg :=
  if name = "recv".toList then some .recv
  else if name = "transfer".toList then some .transfer
  else if name = "stake".toList then some .stake
  else if name = "gov".toList then some .gov
  else none

inductive MixError where
  /-- `invalid mix entry %q` -/
  | invalidEntry (p : Text)
  /-- `bad percent in %q: %v` -/
  | badPercent (p err : Text)
  /-- `unknown msg type %q (known: recv, transfer, stake, gov)` -/
  | unknownMsg (name : Text)
  /-- `tx-mix percentages must sum to 100, got %v` -/
  | badTotal (total : ℚ)
  deriving DecidableEq

/-- What the loop of `parseMix` makes of one part of the string. -/
def parseEntry (parseFloat : Text → Except Text ℚ) (p : Text) : Except MixError (Msg × ℚ) :=
  match cutColon (trimSpace p) with
  | none => .error (.invalidEntry p)
  | some (key, value) =>
      let name := trimSpace key
      match parseFloat (trimSpace value) with
      | .error err => .error (.badPercent p err)
      | .ok pct =>
          match Msg.ofName name with
          | none => .error (.unknownMsg name)
          | some msg => .ok (msg, pct)

/-- The variables of `parseMix`; a key that is not in the map reads as 0. -/
structure Mix where
  mix : Msg → ℚ
  names : List Msg
  total : ℚ

namespace Mix

def empty : Mix := ⟨fun _ => 0, [], 0⟩

def add (m : Mix) (e : Msg × ℚ) : Mix :=
  ⟨fun msg => if msg = e.1 then e.2 else m.mix msg, m.names ++ [e.1], m.total + e.2⟩

end Mix

def parseEntries (parseFloat : Text → Except Text ℚ) (m : Mix) : List Text → Except MixError Mix
  | [] => .ok m
  | p :: ps => do
      let e ← parseEntry parseFloat p
      parseEntries parseFloat (m.add e) ps

def parseMix (parseFloat : Text → Except Text ℚ) (s : Text) : Except MixError ((Msg → ℚ) × List Msg) := do
  let m ← parseEntries parseFloat .empty (s.splitOn ',')
  if |m.total - 100| > 1 / 100 then .error (.badTotal m.total) else .ok (m.mix, m.names)

/-! ## `newSim` and `pickMsg` -/

/-- The running totals of `newSim`, from `acc` on. -/
def mixCum (mix : Msg → ℚ) (acc : ℚ) : List Msg → List ℚ
  | [] => []
  | name :: names => (acc + mix name) :: mixCum mix (acc + mix name) names

/-- `pickMsg` for the draw `r`; nothing stands for an index out of range. -/
def pickMsg {K : Type} [LE K] [DecidableLE K] [RatCast K] (mixNames : List Msg) (mixCum : List ℚ) (r : K) :
    Option Msg :=
  drawn (mixNames.zip mixCum) mixNames.getLast? r

/-! ## What the string gives -/

def Msg.all : Finset Msg := {.recv, .transfer, .stake, .gov}

theorem Msg.mem_all (msg : Msg) : msg ∈ Msg.all := by
  cases msg <;> decide

instance : Fintype Msg := ⟨Msg.all, Msg.mem_all⟩

/-- The percentages given to a type, together. -/
def givenTo (entries : List (Msg × ℚ)) (msg : Msg) : ℚ := ((entries.filter (·.1 = msg)).map (·.2)).sum

/-- The percentage given to a type last. -/
def lastGiven (entries : List (Msg × ℚ)) (msg : Msg) : ℚ :=
  ((entries.filter (·.1 = msg)).getLast?.map (·.2)).getD 0

/-- The entries of the list, each with the percentage its type was given last. -/
def effective (entries : List (Msg × ℚ)) : List (Msg × ℚ) :=
  entries.map fun e => (e.1, lastGiven entries e.1)

/-- The draws in `[0, 100)` give each type for a length of what the entries give it. -/
def Honoured (mix : Msg → ℚ) (names : List Msg) (entries : List (Msg × ℚ)) : Prop :=
  ∀ msg, volume (Set.Ico (0 : ℝ) 100 ∩ {r | pickMsg names (mixCum mix 0 names) r = some msg}) =
    ENNReal.ofReal (givenTo entries msg : ℝ)

/-! ## The parse -/

theorem lastGiven_append (entries : List (Msg × ℚ)) (e : Msg × ℚ) (msg : Msg) :
    lastGiven (entries ++ [e]) msg = if msg = e.1 then e.2 else lastGiven entries msg := by
  unfold lastGiven
  rw [List.filter_append]
  by_cases h : msg = e.1
  · simp [h]
  · simp [h, Ne.symm h]

/-- The variables after the entries. -/
theorem foldl_add (entries : List (Msg × ℚ)) :
    entries.foldl Mix.add .empty =
      ⟨lastGiven entries, entries.map (·.1), (entries.map (·.2)).sum⟩ := by
  induction entries using List.reverseRecOn with
  | nil => rfl
  | append_singleton entries e ih =>
      have hlast : lastGiven (entries ++ [e]) = fun msg => if msg = e.1 then e.2 else lastGiven entries msg :=
        funext (lastGiven_append entries e)
      rw [List.foldl_append, ih, hlast]
      simp [Mix.add]

theorem parseEntries_eq {parseFloat : Text → Except Text ℚ} {m : Mix} {ps : List Text}
    {entries : List (Msg × ℚ)} (hentries : ps.mapM (parseEntry parseFloat) = .ok entries) :
    parseEntries parseFloat m ps = .ok (entries.foldl Mix.add m) := by
  induction ps generalizing m entries with
  | nil =>
      obtain rfl : [] = entries := Except.ok.inj hentries
      rfl
  | cons p ps ih =>
      rw [List.mapM_cons] at hentries
      obtain ⟨e, he, hrest⟩ := except_bind_eq_ok hentries
      obtain ⟨es, hes, heq⟩ := except_bind_eq_ok hrest
      obtain rfl := Except.ok.inj heq
      show (parseEntry parseFloat p).bind _ = .ok (es.foldl Mix.add (m.add e))
      rw [he]
      exact ih hes

/-- What a string leaves: every type as often as it stands, with the percentage it was given last. -/
theorem parseMix_eq {parseFloat : Text → Except Text ℚ} {s : Text} {entries : List (Msg × ℚ)}
    (hentries : (s.splitOn ',').mapM (parseEntry parseFloat) = .ok entries) :
    parseMix parseFloat s =
      if |(entries.map (·.2)).sum - 100| > 1 / 100 then .error (.badTotal (entries.map (·.2)).sum)
      else .ok (lastGiven entries, entries.map (·.1)) := by
  unfold parseMix
  rw [parseEntries_eq hentries, foldl_add]
  rfl

/-- Percentages that sum to 100 are accepted. -/
theorem parseMix_of_sum {parseFloat : Text → Except Text ℚ} {s : Text} {entries : List (Msg × ℚ)}
    (hentries : (s.splitOn ',').mapM (parseEntry parseFloat) = .ok entries)
    (hsum : (entries.map (·.2)).sum = 100) :
    parseMix parseFloat s = .ok (lastGiven entries, entries.map (·.1)) := by
  rw [parseMix_eq hentries, hsum, if_neg (by norm_num)]

theorem parseMix_ok {parseFloat : Text → Except Text ℚ} {s : Text} {mix : Msg → ℚ} {names : List Msg}
    {entries : List (Msg × ℚ)} (hparse : parseMix parseFloat s = .ok (mix, names))
    (hentries : (s.splitOn ',').mapM (parseEntry parseFloat) = .ok entries) :
    mix = lastGiven entries ∧ names = entries.map (·.1) := by
  rw [parseMix_eq hentries] at hparse
  split at hparse
  · cases hparse
  · obtain ⟨rfl, rfl⟩ := Prod.mk.inj (Except.ok.inj hparse)
    exact ⟨rfl, rfl⟩

/-! ## The draws -/

theorem zip_mixCum (mix : Msg → ℚ) (acc : ℚ) (names : List Msg) :
    names.zip (mixCum mix acc names) = totals acc (names.map fun name => (name, mix name)) := by
  induction names generalizing acc with
  | nil => rfl
  | cons name names ih =>
      show (name, acc + mix name) :: names.zip (mixCum mix (acc + mix name) names) = _
      rw [ih]
      rfl

theorem lastGiven_nonneg {entries : List (Msg × ℚ)} (hnonneg : ∀ e ∈ entries, 0 ≤ e.2) (msg : Msg) :
    0 ≤ lastGiven entries msg := by
  unfold lastGiven
  cases hlast : (entries.filter (·.1 = msg)).getLast? with
  | none => exact le_refl 0
  | some e => exact hnonneg e (List.mem_of_mem_filter (List.mem_of_getLast? hlast))

theorem effective_nonneg {entries : List (Msg × ℚ)} (hnonneg : ∀ e ∈ entries, 0 ≤ e.2) :
    ∀ e ∈ effective entries, 0 ≤ e.2 := by
  intro e he
  obtain ⟨e', -, rfl⟩ := List.mem_map.mp he
  exact lastGiven_nonneg hnonneg e'.1

/-- The length of the draws for a type: what it is allotted of the 100, and the rest for the type that
stands last. -/
theorem volume_pickMsg {entries : List (Msg × ℚ)} (hnonneg : ∀ e ∈ entries, 0 ≤ e.2) (msg : Msg) :
    volume (Set.Ico (0 : ℝ) 100 ∩ {r | pickMsg (entries.map (·.1))
        (mixCum (lastGiven entries) 0 (entries.map (·.1))) r = some msg}) =
      ENNReal.ofReal ((allotted 100 (effective entries) msg +
        if (entries.map (·.1)).getLast? = some msg then unallotted 100 (effective entries) else 0 : ℚ) : ℝ) := by
  have hvolume := volume_draws (effective_nonneg hnonneg) (show (0 : ℚ) ≤ 100 by norm_num)
    (entries.map (·.1)).getLast? msg
  have htable : (entries.map (·.1)).zip (mixCum (lastGiven entries) 0 (entries.map (·.1))) =
      totals 0 (effective entries) := by
    rw [zip_mixCum, List.map_map]
    rfl
  rw [sub_zero] at hvolume
  rw [← hvolume]
  unfold pickMsg draws
  rw [htable, Rat.cast_zero, Rat.cast_ofNat]
  -- The draw 0 is in and the draw 100 is out: no length either way.
  exact measure_congr (Ico_ae_eq_Ioc.inter (ae_eq_refl _))

theorem sum_givenTo (entries : List (Msg × ℚ)) : ∑ msg, givenTo entries msg = (entries.map (·.2)).sum := by
  induction entries with
  | nil => simp [givenTo]
  | cons e entries ih =>
      have hcons : ∀ msg, givenTo (e :: entries) msg = (if e.1 = msg then e.2 else 0) + givenTo entries msg := by
        intro msg
        unfold givenTo
        by_cases h : e.1 = msg <;> simp [h]
      rw [Finset.sum_congr rfl fun msg _ => hcons msg, Finset.sum_add_distrib, ih, Finset.sum_ite_eq,
        if_pos (Finset.mem_univ _), List.map_cons, List.sum_cons]

theorem givenTo_nonneg {entries : List (Msg × ℚ)} (hnonneg : ∀ e ∈ entries, 0 ≤ e.2) (msg : Msg) :
    0 ≤ givenTo entries msg := by
  apply List.sum_nonneg
  intro pct hpct
  obtain ⟨e, he, rfl⟩ := List.mem_map.mp hpct
  exact hnonneg e (List.mem_of_mem_filter he)

/-- The type that stands last gets what the others leave. -/
theorem last_allotted {entries : List (Msg × ℚ)} {last : Msg} (hsum : (entries.map (·.2)).sum = 100)
    (hothers : ∀ msg, last ≠ msg → allotted 100 (effective entries) msg = givenTo entries msg) :
    allotted 100 (effective entries) last + unallotted 100 (effective entries) = givenTo entries last := by
  have hall := sum_allotted 100 (effective entries)
  have hgiven := sum_givenTo entries
  have herase : ∑ msg ∈ Finset.univ.erase last, allotted 100 (effective entries) msg =
      ∑ msg ∈ Finset.univ.erase last, givenTo entries msg :=
    Finset.sum_congr rfl fun msg hmsg => hothers msg (Finset.ne_of_mem_erase hmsg).symm
  rw [← Finset.add_sum_erase _ _ (Finset.mem_univ last)] at hall hgiven
  linarith

/-- **When the mix is honoured.** For percentages that are not negative and sum to 100: when the 100 are
handed out in the order of the string, each entry taking the percentage its type was given last as far as
there is room, and each type but the one that stands last gets the sum of what it was given. -/
theorem mix_honoured_iff (parseFloat : Text → Except Text ℚ) (s : Text) (mix : Msg → ℚ) (names : List Msg)
    (entries : List (Msg × ℚ)) (hparse : parseMix parseFloat s = .ok (mix, names))
    (hentries : (s.splitOn ',').mapM (parseEntry parseFloat) = .ok entries)
    (hnonneg : ∀ e ∈ entries, 0 ≤ e.2) (hsum : (entries.map (·.2)).sum = 100) :
    Honoured mix names entries ↔
      ∀ msg, names.getLast? ≠ some msg →
        allotted 100 (effective entries) msg = givenTo entries msg := by
  obtain ⟨rfl, rfl⟩ := parseMix_ok hparse hentries
  have hroom : (0 : ℚ) ≤ 100 := by norm_num
  have htaken := allotted_nonneg hroom (effective_nonneg hnonneg)
  constructor
  · intro hhonoured msg hmsg
    have hvolume := hhonoured msg
    rw [volume_pickMsg hnonneg, if_neg hmsg, add_zero, ENNReal.ofReal_eq_ofReal_iff
      (Rat.cast_nonneg.mpr (htaken msg)) (Rat.cast_nonneg.mpr (givenTo_nonneg hnonneg msg))] at hvolume
    exact Rat.cast_injective hvolume
  · intro hothers msg
    rw [volume_pickMsg hnonneg]
    split
    · next hlast =>
        have hleft : ∀ other, msg ≠ other →
            allotted 100 (effective entries) other = givenTo entries other := by
          intro other hother
          apply hothers other
          rw [hlast]
          exact fun heq => hother (Option.some.inj heq)
        rw [last_allotted hsum hleft]
    · next hlast => rw [add_zero, hothers msg hlast]

/-- A string that gives no type two different percentages is honoured. -/
theorem honoured_of_consistent {entries : List (Msg × ℚ)} (hnonneg : ∀ e ∈ entries, 0 ≤ e.2)
    (hsum : (entries.map (·.2)).sum = 100) (hsame : ∀ e ∈ entries, lastGiven entries e.1 = e.2) (msg : Msg) :
    allotted 100 (effective entries) msg = givenTo entries msg := by
  have heffective : effective entries = entries := by
    unfold effective
    conv_rhs => rw [← List.map_id entries]
    apply List.map_congr_left
    intro e he
    rw [hsame e he]
    rfl
  rw [heffective]
  exact allotted_of_sum_le hnonneg hsum.le msg

/-- `strconv.ParseFloat` on whole numbers. -/
def wholeNumber (t : Text) : Except Text ℚ :=
  if t ≠ [] ∧ t.all Char.isDigit then .ok (t.foldl (fun n c => 10 * n + (c.toNat - 48)) 0 : ℕ)
  else .error "invalid syntax".toList

/-- `recv:60,transfer:40` -/
theorem mix_honoured_once :
    Honoured (lastGiven [(.recv, 60), (.transfer, 40)]) [.recv, .transfer] [(.recv, 60), (.transfer, 40)] := by
  have hnonneg : ∀ e ∈ [(Msg.recv, (60 : ℚ)), (.transfer, 40)], 0 ≤ e.2 := by simp
  have hsum : ([(Msg.recv, (60 : ℚ)), (.transfer, 40)].map (·.2)).sum = 100 := by norm_num
  have hentries : ("recv:60,transfer:40".toList.splitOn ',').mapM (parseEntry wholeNumber) =
      .ok [(.recv, 60), (.transfer, 40)] := rfl
  refine (mix_honoured_iff wholeNumber "recv:60,transfer:40".toList _ _ _
    (parseMix_of_sum hentries hsum) hentries hnonneg hsum).mpr ?_
  intro msg _
  exact honoured_of_consistent hnonneg hsum (by simp [lastGiven]) msg

/-- `recv:50,recv:10,transfer:40` is accepted, and transfers are drawn for 80 of the 100 and not for 40: the
receives are in the list twice, with the 10 they were given last. -/
theorem mix_not_honoured :
    ∃ mix names entries, parseMix wholeNumber "recv:50,recv:10,transfer:40".toList = .ok (mix, names) ∧
      ("recv:50,recv:10,transfer:40".toList.splitOn ',').mapM (parseEntry wholeNumber) = .ok entries ∧
      (∀ e ∈ entries, 0 ≤ e.2) ∧ (entries.map (·.2)).sum = 100 ∧ givenTo entries .transfer = 40 ∧
      volume (Set.Ico (0 : ℝ) 100 ∩ {r | pickMsg names (mixCum mix 0 names) r = some .transfer}) = 80 := by
  have hnonneg : ∀ e ∈ [(Msg.recv, (50 : ℚ)), (.recv, 10), (.transfer, 40)], 0 ≤ e.2 := by simp
  have hsum : ([(Msg.recv, (50 : ℚ)), (.recv, 10), (.transfer, 40)].map (·.2)).sum = 100 := by norm_num
  have hentries : ("recv:50,recv:10,transfer:40".toList.splitOn ',').mapM (parseEntry wholeNumber) =
      .ok [(.recv, 50), (.recv, 10), (.transfer, 40)] := rfl
  have heffective : effective [(Msg.recv, (50 : ℚ)), (.recv, 10), (.transfer, 40)] =
      [(.recv, 10), (.recv, 10), (.transfer, 40)] := by simp [effective, lastGiven]
  refine ⟨_, _, _, parseMix_of_sum hentries hsum, hentries, hnonneg, hsum, by simp [givenTo], ?_⟩
  have hne : Msg.recv ≠ .transfer := by decide
  rw [volume_pickMsg hnonneg, heffective]
  norm_num [allotted, unallotted, hne]

end PqcMigration.Tools.StorageSim
