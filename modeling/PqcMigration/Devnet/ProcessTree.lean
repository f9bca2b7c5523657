/-
# PqcMigration.Devnet.ProcessTree — `processTree` of `lib/memsample.js`: a process and its descendants.

The function reads the parent of every process from `/proc`, makes a table of children, and searches it
from the root with a stack. Links can form cycles, since the files are read one after the other and ids are
used again; that is the business of `Lib.Search`. What is left is the parsing: the name of the command
stands in parentheses, is not escaped, and is any bytes at all. The fields are found from the LAST closing
parenthesis, which is the one after the name, as no field after it has one (`ppid_stat`).

Ids are far below 2^53, so they are exact as numbers. Where a position in a text is used, it counts
characters; the two that are stepped over are ASCII in every `stat` file.
-/
import PqcMigration.Devnet.Config
import PqcMigration.Lib.Json
import PqcMigration.Lib.Search
import PqcMigration.Lib.Utf8
import Mathlib.Data.List.TakeWhile

namespace PqcMigration.Devnet.Memsample

open Lib Config

/-! ## The function -/

/-- `/proc` -/
structure Proc where
  /-- `fs.readdirSync("/proc")`; `none` if it throws -/
  names : Option (List Text)
  /-- `fs.readFileSync`, before decoding; `none` if it throws -/
  stat : ℕ → Option Bytes

/-- `/^\d+$/.test(d)` -/
def isPid (d : Text) : Bool := !d.isEmpty && d.all Char.isDigit

/-- `Number(d)`, of digits -/
def number (d : Text) : ℕ := Nat.ofDigitChars 10 d 0

def pids (names : List Text) : List ℕ := (names.filter isPid).map number

/-- `stat.slice(stat.lastIndexOf(")") + 2)`: what follows the last parenthesis, without its first
character. With no parenthesis the index is -1, which has the same effect on the whole text. -/
def afterComm (stat : Text) : Text := (stat.reverse.takeWhile (· ≠ ')')).reverse.drop 1

/-- The digits at the beginning; `none` for `NaN`. -/
def leadingNumber (t : Text) : Option ℕ :=
  if (t.takeWhile Char.isDigit).isEmpty then none else some (number (t.takeWhile Char.isDigit))

/-- `parseInt(t, 10)` -/
def parseInt (t : Text) : Option ℤ :=
  let t := t.dropWhile isSpace
  if t.head? = some '-' then (leadingNumber t.tail).map fun n => -(n : ℤ)
  else (leadingNumber (if t.head? = some '+' then t.tail else t)).map fun n => (n : ℤ)

/-- With fewer than two fields, `after[1]` is undefined, and its text is no number. -/
def ppid (stat : Text) : Option ℤ := (((afterComm stat).splitOn ' ')[1]?).bind parseInt

/-- One turn of the loop that fills `children`. -/
def linkOf (proc : Proc) (pid : ℕ) : Option (ℤ × ℤ) :=
  (proc.stat pid).bind fun bs => (ppid (Utf8.decodeFrom Utf8.idle bs)).map fun p => (p, (pid : ℤ))

/-- `out` and `seen` have the same elements. -/
def processTree (proc : Proc) (root : ℤ) : List ℤ :=
  match proc.names with
  | none => [root]
  | some names => Search.search ((pids names).filterMap (linkOf proc)) [root] []

/-! ## Any `/proc` -/

/-- A link that is read: the child is listed, and its file names the parent. -/
def Linked (proc : Proc) (p c : ℤ) : Prop :=
  ∃ names pid, proc.names = some names ∧ pid ∈ pids names ∧ linkOf proc pid = some (p, c)

/-- Nothing is assumed about the texts; a directory that cannot be read has no links. -/
theorem processTree_linked (proc : Proc) (root : ℤ) :
    (processTree proc root).Nodup ∧
      ∀ v, v ∈ processTree proc root ↔ Relation.ReflTransGen (Linked proc) root v := by
  unfold processTree
  cases hnames : proc.names with
  | none =>
      have hno : ∀ p c, ¬ Linked proc p c := by
        rintro p c ⟨names, pid, h, -⟩
        rw [hnames] at h
        exact nomatch h
      refine ⟨List.nodup_singleton root, fun v => ?_⟩
      rw [List.mem_singleton]
      constructor
      · rintro rfl
        exact Relation.ReflTransGen.refl
      · intro h
        cases h with
        | refl => rfl
        | tail _ hlink => exact absurd hlink (hno _ _)
  | some names =>
      obtain ⟨hnodup, hmem⟩ := Search.search_exact ((pids names).filterMap (linkOf proc)) root
      refine ⟨hnodup, fun v => (hmem v).trans ?_⟩
      have hlink : (fun p c => (p, c) ∈ (pids names).filterMap (linkOf proc)) = Linked proc := by
        funext p c
        simp [Linked, hnames, List.mem_filterMap]
      rw [Search.Reach, hlink]

/-! ## A snapshot -/

/-- A process, as its `stat` file shows it. The name is any bytes. -/
structure Entry where
  pid : ℕ
  comm : Bytes
  state : Char
  ppid : ℤ
  /-- the fields after the parent's id -/
  rest : Text
  state_ok : state ≠ ' ' ∧ state ≠ ')'
  rest_ok : ')' ∉ rest

/-- `pid (comm) state ppid …` -/
def Entry.stat (e : Entry) : Bytes :=
  (Nat.toDigits 10 e.pid ++ [' ', '(']).flatMap String.utf8EncodeChar ++ e.comm ++
    (')' :: ' ' :: e.state :: ' ' :: (Json.intText e.ppid ++ ' ' :: e.rest)).flatMap String.utf8EncodeChar

/-- What is listed in `/proc`: a process, one that is gone when its file is read, or something else. -/
inductive Item where
  | process (e : Entry)
  | gone (pid : ℕ)
  | other (name : Text) (h : isPid name = false)

def Item.name : Item → Text
  | .process e => Nat.toDigits 10 e.pid
  | .gone pid => Nat.toDigits 10 pid
  | .other name _ => name

def Item.entry : Item → Option Entry
  | .process e => some e
  | _ => none

/-- A directory has no name twice. -/
structure Snapshot where
  items : List Item
  nodup : (items.map Item.name).Nodup

def Snapshot.entries (s : Snapshot) : List Entry := s.items.filterMap Item.entry

def Snapshot.proc (s : Snapshot) : Proc where
  names := some (s.items.map Item.name)
  stat := fun pid => (s.entries.find? fun e => e.pid = pid).map Entry.stat

/-- A process of the snapshot, and its parent. -/
def Snapshot.Child (s : Snapshot) (p c : ℤ) : Prop := ∃ e ∈ s.entries, e.ppid = p ∧ (e.pid : ℤ) = c

/-! ## Parsing -/

theorem isDigit_toDigits {n : ℕ} {c : Char} (h : c ∈ Nat.toDigits 10 n) : c.isDigit = true :=
  Nat.isDigit_of_mem_toDigits (by decide) (by decide) h

theorem toDigits_ne_nil (n : ℕ) : Nat.toDigits 10 n ≠ [] := by
  have hlen := Nat.length_toDigits_pos (b := 10) (n := n)
  exact List.ne_nil_of_length_pos hlen

theorem isPid_toDigits (n : ℕ) : isPid (Nat.toDigits 10 n) = true := by
  have hall : (Nat.toDigits 10 n).all Char.isDigit = true :=
    List.all_eq_true.mpr fun c hc => isDigit_toDigits hc
  simp [isPid, hall, toDigits_ne_nil n]

theorem number_toDigits (n : ℕ) : number (Nat.toDigits 10 n) = n := Nat.ofDigitChars_ten_toDigits

theorem leadingNumber_toDigits (n : ℕ) : leadingNumber (Nat.toDigits 10 n) = some n := by
  have hall : (Nat.toDigits 10 n).takeWhile Char.isDigit = Nat.toDigits 10 n :=
    List.takeWhile_eq_self_iff.mpr fun c hc => isDigit_toDigits hc
  rw [leadingNumber, hall, number_toDigits]
  simp [toDigits_ne_nil n]

theorem isSpace_of_isDigit {c : Char} (h : c.isDigit = true) : isSpace c = false := by
  apply isSpace_of_isKeyChar
  have hrange : 48 ≤ c.toNat ∧ c.toNat ≤ 57 := Char.isDigit_iff_toNat.mp h
  simp [isKeyChar, hrange]

theorem parseInt_intText (z : ℤ) : parseInt (Json.intText z) = some z := by
  rw [Json.intText]
  by_cases hz : z < 0
  · rw [if_pos hz, parseInt, List.dropWhile_cons_of_neg (by decide), List.head?_cons, if_pos rfl,
      List.tail_cons, leadingNumber_toDigits]
    show some (-(z.natAbs : ℤ)) = some z
    rw [Int.ofNat_natAbs_of_nonpos (Int.le_of_lt hz), Int.neg_neg]
  · have hspace : (Nat.toDigits 10 z.natAbs).dropWhile isSpace = Nat.toDigits 10 z.natAbs :=
      dropWhile_eq_self_of_forall fun c hc => isSpace_of_isDigit (isDigit_toDigits hc)
    have hsign {c : Char} (hc : c.isDigit = false) : (Nat.toDigits 10 z.natAbs).head? ≠ some c := by
      intro h
      rw [isDigit_toDigits (List.mem_of_mem_head? h)] at hc
      cases hc
    rw [if_neg hz, parseInt, hspace, if_neg (hsign rfl), if_neg (hsign rfl), leadingNumber_toDigits]
    show some (z.natAbs : ℤ) = some z
    rw [Int.natAbs_of_nonneg (Int.not_lt.mp hz)]

theorem afterComm_append {tail : Text} (h : ')' ∉ tail) (t : Text) :
    afterComm (t ++ ')' :: tail) = tail.drop 1 := by
  have hpass : ∀ c ∈ tail.reverse, decide (c ≠ ')') = true := fun c hc =>
    decide_eq_true fun heq => h (heq ▸ List.mem_reverse.mp hc)
  rw [afterComm, List.reverse_append, List.reverse_cons, List.append_assoc,
    List.takeWhile_append_of_pos hpass, List.singleton_append, List.takeWhile_cons_of_neg (by decide),
    List.append_nil, List.reverse_reverse]

theorem splitOn_append {a : Char} {t : Text} (h : a ∉ t) (rest : Text) :
    (t ++ a :: rest).splitOn a = t :: rest.splitOn a := by
  have hne : ∀ c ∈ t, (c == a) = false := by
    intro c hc
    rw [beq_eq_false_iff_ne]
    rintro rfl
    exact h hc
  exact List.splitOnP_append_cons_of_forall_mem hne a (beq_self_eq_true a) rest

theorem notMem_intText {c : Char} (hc : c.isDigit = false) (hminus : c ≠ '-') (z : ℤ) :
    c ∉ Json.intText z := by
  have hdigits : c ∉ Nat.toDigits 10 z.natAbs := fun h => by
    rw [isDigit_toDigits h] at hc
    exact nomatch hc
  rw [Json.intText]
  split
  · exact List.not_mem_cons_of_ne_of_not_mem hminus hdigits
  · exact hdigits

/-- **The last parenthesis ends the name**, whatever bytes the name has. -/
theorem ppid_stat (e : Entry) : ppid (Utf8.decodeFrom Utf8.idle e.stat) = some e.ppid := by
  obtain ⟨hblank, hparen⟩ := e.state_ok
  -- the name and what stands before it become some text or other
  obtain ⟨t, ht⟩ : ∃ t, Utf8.decodeFrom Utf8.idle e.stat =
      t ++ ')' :: ' ' :: e.state :: ' ' :: (Json.intText e.ppid ++ ' ' :: e.rest) := by
    have hone : String.utf8EncodeChar ')' = [0x29] := by decide
    have hidle : Utf8.NoAscii Utf8.idle := Or.inl rfl
    obtain ⟨t, ht⟩ := Utf8.decodeFrom_ascii hidle (b := 0x29) (by decide)
      ((Nat.toDigits 10 e.pid ++ [' ', '(']).flatMap String.utf8EncodeChar ++ e.comm)
      ((' ' :: e.state :: ' ' :: (Json.intText e.ppid ++ ' ' :: e.rest)).flatMap String.utf8EncodeChar)
    refine ⟨t, ?_⟩
    rw [Utf8.decodeFrom_encodeChars] at ht
    rw [Entry.stat, List.flatMap_cons, hone]
    exact ht
  have htail : ')' ∉ ' ' :: e.state :: ' ' :: (Json.intText e.ppid ++ ' ' :: e.rest) := by
    have hnum := notMem_intText (c := ')') rfl (by decide) e.ppid
    simp [hnum, e.rest_ok, Ne.symm hparen]
  have hstate : ' ' ∉ [e.state] := by simpa using Ne.symm hblank
  rw [ht, ppid, afterComm_append htail, List.drop_one, List.tail_cons, ← List.singleton_append,
    splitOn_append hstate, splitOn_append (notMem_intText rfl (by decide) e.ppid)]
  exact parseInt_intText e.ppid

example : ppid "12 (a) S 9 (b) R 3 0".toList = some 3 := by decide

/-! ## The links of a snapshot -/

theorem Snapshot.mem_entries (s : Snapshot) {e : Entry} : e ∈ s.entries ↔ Item.process e ∈ s.items := by
  rw [entries, List.mem_filterMap]
  constructor
  · rintro ⟨item, hitem, hentry⟩
    cases item with
    | process e' =>
        obtain rfl := Option.some.inj hentry
        exact hitem
    | gone pid => exact nomatch hentry
    | other name h => exact nomatch hentry
  · exact fun h => ⟨.process e, h, rfl⟩

/-- Two entries with the same id are the same, as their names are. -/
theorem Snapshot.entry_unique (s : Snapshot) {e e' : Entry} (he : e ∈ s.entries) (he' : e' ∈ s.entries)
    (hpid : e.pid = e'.pid) : e = e' := by
  have hname : Item.name (.process e) = Item.name (.process e') := by
    rw [Item.name, Item.name, hpid]
  have hitem := List.inj_on_of_nodup_map s.nodup (s.mem_entries.mp he) (s.mem_entries.mp he') hname
  exact Item.process.inj hitem

theorem Snapshot.stat_entry (s : Snapshot) {e : Entry} (he : e ∈ s.entries) :
    s.proc.stat e.pid = some e.stat := by
  show (s.entries.find? fun e' => e'.pid = e.pid).map Entry.stat = some e.stat
  cases hfind : s.entries.find? fun e' => e'.pid = e.pid with
  | none =>
      have hnot := List.find?_eq_none.mp hfind e he
      exact absurd (decide_eq_true rfl) hnot
  | some e' =>
      have hpid : e'.pid = e.pid := by simpa using List.find?_some hfind
      rw [s.entry_unique (List.mem_of_find?_eq_some hfind) he hpid]
      rfl

theorem Snapshot.linkOf_entry (s : Snapshot) {e : Entry} (he : e ∈ s.entries) :
    linkOf s.proc e.pid = some (e.ppid, (e.pid : ℤ)) := by
  rw [linkOf, s.stat_entry he, Option.bind_some, ppid_stat]
  rfl

theorem Snapshot.mem_pids (s : Snapshot) {e : Entry} (he : e ∈ s.entries) :
    e.pid ∈ pids (s.items.map Item.name) := by
  have hname : Nat.toDigits 10 e.pid ∈ s.items.map Item.name :=
    List.mem_map.mpr ⟨.process e, s.mem_entries.mp he, rfl⟩
  exact List.mem_map.mpr ⟨_, List.mem_filter.mpr ⟨hname, isPid_toDigits e.pid⟩, number_toDigits e.pid⟩

theorem Snapshot.linked_iff (s : Snapshot) (p c : ℤ) : Linked s.proc p c ↔ s.Child p c := by
  constructor
  · rintro ⟨names, pid, -, -, hlink⟩
    -- a file that can be read is an entry's
    obtain ⟨bs, hstat, -⟩ := Option.bind_eq_some_iff.mp hlink
    obtain ⟨e, hfind, -⟩ := Option.map_eq_some_iff.mp hstat
    have he : e ∈ s.entries := List.mem_of_find?_eq_some hfind
    obtain rfl : e.pid = pid := by simpa using List.find?_some hfind
    rw [s.linkOf_entry he] at hlink
    obtain ⟨hp, hc⟩ := Prod.mk.inj (Option.some.inj hlink)
    exact ⟨e, he, hp, hc⟩
  · rintro ⟨e, he, rfl, rfl⟩
    exact ⟨_, e.pid, rfl, s.mem_pids he, s.linkOf_entry he⟩

/-- **The tree is exact.** For every snapshot, with any names of commands and any parents, and every root:
each process that can be reached from the root through links from parent to child comes once, and nothing
else does. -/
theorem processTree_exact (s : Snapshot) (root : ℤ) :
    (processTree s.proc root).Nodup ∧
      ∀ v, v ∈ processTree s.proc root ↔ Relation.ReflTransGen s.Child root v := by
  have hlinks : Linked s.proc = s.Child := by
    funext p c
    exact propext (s.linked_iff p c)
  rw [← hlinks]
  exact processTree_linked s.proc root

end PqcMigration.Devnet.Memsample
