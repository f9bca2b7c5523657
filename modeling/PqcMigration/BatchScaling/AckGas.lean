/-
# PqcMigration.BatchScaling.AckGas — the gas of one `step-ack.js` run, and what `ack_one` records of it.

A run polls until the light client has a consensus state it can prove against. Every third turn it
calls `update-eth-client.py`, which sends an update, and sends it again while the chain's clock is
behind; then it sends the acknowledgement. Every send that was included prints one result line, except
those sent again. `ack_one` reads the gas values off the run's stdout BY POSITION: of two or more, the
first is the update's and the last the acknowledgement's, and the packet counts as one that updated the
client.

So a second update is lost, as is one that was sent again, and an update that failed on chain counts
like one that succeeded. `ack_gas_accounted_iff` says when that makes no difference.

Gas is read from transactions that were seen included; one that `sendtx.py` gave up on prints nothing.
A line that says nothing about gas is a `Quiet` one, whatever its words are.
-/
import PqcMigration.BatchScaling.AckPool
import PqcMigration.Devnet.ConfigPy

namespace PqcMigration.BatchScaling

open Devnet.Config (dropTrailing)
open Devnet.ConfigPy (isSpace strip)

/-! ## `_gas_from_stdout` -/

/-- What the result line of a transaction says, as far as it is read. -/
structure TxResult where
  code : ℕ
  gasUsed : ℕ
  rawLog : Text
  deriving DecidableEq

/-- `needle in t` -/
def contains (needle t : Text) : Bool := t.tails.any fun rest => needle.isPrefixOf rest

/-- What the light client says of an update that is ahead of the chain's clock. -/
def tooEarly : Text := "more recent than the calculated current slot".toList

/-- `json.dumps` of a result, and `int(json.loads(line)["gas_used"])`, which is `none` where that
raises. -/
structure ResultFormat where
  dumps : TxResult → Text
  loads : Text → Option ℕ
  strip_dumps : ∀ r, strip (dumps r) = dumps r
  head_dumps : ∀ r, (dumps r).head? = some '\x7b'
  gas_used_dumps : ∀ r, contains "gas_used".toList (dumps r) = true
  loads_dumps : ∀ r, loads (dumps r) = some r.gasUsed
  /-- Only a transaction that failed has a log. -/
  no_log : ∀ r, r.code = 0 → contains tooEarly (dumps r) = false

variable {fmt : ResultFormat}

/-- One turn of the loop over the lines. -/
def lineGas (fmt : ResultFormat) (line : Text) : Option ℕ :=
  let line := strip line
  if line.head? ≠ some '\x7b' ∨ contains "gas_used".toList line = false then none else fmt.loads line

/-- `_gas_from_stdout`, of stdout's lines. -/
def gasFromStdout (fmt : ResultFormat) (stdout : List Text) : List ℕ := stdout.filterMap (lineGas fmt)

/-- A line that no gas is read from. -/
abbrev Quiet (fmt : ResultFormat) := { line : Text // lineGas fmt line = none }

/-! ## `update-eth-client.py` -/

/-- How `sendtx.py` ends: with the transaction included, its exit status saying whether it failed; or
with a complaint on stderr, which may be that of the light client. -/
inductive SendTx (fmt : ResultFormat) where
  | included (r : TxResult)
  | refused (early : Bool) (stderr : List (Quiet fmt))

/-- `"more recent than the calculated current slot" in result` -/
def SendTx.early : SendTx fmt → Bool
  | .included r => contains tooEarly (fmt.dumps r)
  | .refused early _ => early

/-- `out.stdout.strip() or out.stderr.strip()[-800:]` -/
def SendTx.result : SendTx fmt → List Text
  | .included r => [fmt.dumps r]
  | .refused _ stderr => stderr.map Subtype.val

def SendTx.onChain : SendTx fmt → List TxResult
  | .included r => [r]
  | .refused _ _ => []

/-- What has been printed, and which transactions have been included. -/
structure Output where
  stdout : List Text
  onChain : List TxResult

def Output.append (a b : Output) : Output := ⟨a.stdout ++ b.stdout, a.onChain ++ b.onChain⟩

def waiting (attempt : ℕ) : Text :=
  "  attempt ".toList ++ digits (attempt + 1) ++
    ": chain clock behind signature slot, waiting".toList

/-- `for attempt in range(6)`; the first argument counts the turns left. -/
def sendLoop (sends : ℕ → SendTx fmt) : ℕ → ℕ → Output
  | 0, _ => ⟨["gave up waiting for the chain clock to catch up".toList], []⟩
  | left + 1, attempt =>
      if (sends attempt).early then
        .append ⟨[waiting attempt], (sends attempt).onChain⟩ (sendLoop sends left (attempt + 1))
      else ⟨(sends attempt).result, (sends attempt).onChain⟩

/-- One call: nothing to do or an exception before anything is sent, or the loop. -/
inductive UpdateCall (fmt : ResultFormat) where
  | unsent (lines : List (Quiet fmt))
  | sent (header : Quiet fmt) (sends : ℕ → SendTx fmt)

def UpdateCall.output : UpdateCall fmt → Output
  | .unsent lines => ⟨lines.map Subtype.val, []⟩
  | .sent header sends => .append ⟨[header.val], []⟩ (sendLoop sends 6 0)

/-! ## `step-ack.js` -/

/-- One turn of the polling loop. The call is made in every third turn only; `notes` are the lines the
script itself prints. -/
structure Poll (fmt : ResultFormat) where
  call : UpdateCall fmt
  heights : List ℕ
  late : Bool
  notes : List (Quiet fmt)

/-- `Math.max(...usable)`, when there is a usable slot. -/
def usableSlot (proofSlot : ℕ) (heights : List ℕ) : Option ℕ :=
  (heights.filter fun s => proofSlot ≤ s).max?

/-- The polling loop: its output, and the slot it ends with. A run that is killed has no more turns. -/
def pollLoop (proofSlot : ℕ) : ℕ → List (Poll fmt) → Output × Option ℕ
  | _, [] => (⟨[], []⟩, none)
  | attempt, poll :: polls =>
      let out := if attempt % 3 = 0 then poll.call.output else ⟨[], []⟩
      let out := out.append ⟨poll.notes.map Subtype.val, []⟩
      match usableSlot proofSlot poll.heights with
      | some slot => (out, some slot)
      | none =>
          if poll.late then (out, none)
          else
            let rest := pollLoop proofSlot (attempt + 1) polls
            (out.append rest.1, rest.2)

structure AckRun (fmt : ResultFormat) where
  proofSlot : ℕ
  /-- what is printed before the loop, and after it -/
  before : List (Quiet fmt)
  polls : List (Poll fmt)
  after : List (Quiet fmt)
  /-- `none` when the block or the proof could not be fetched -/
  ack : Option (SendTx fmt)

/-- The transactions of the run's updates, in order. -/
def AckRun.updates (r : AckRun fmt) : List TxResult := (pollLoop r.proofSlot 0 r.polls).1.onChain

/-- A run that succeeds: what it printed, and the acknowledgement. A slot that is falsy is an error, and
so is an acknowledgement that was not included or failed. -/
def stepAck (r : AckRun fmt) : Option (List Text × TxResult) :=
  let polled := pollLoop r.proofSlot 0 r.polls
  match polled.2, r.ack with
  | some slot, some (.included tx) =>
      if slot = 0 ∨ tx.code ≠ 0 then none
      else
        some (r.before.map Subtype.val ++ polled.1.stdout ++ r.after.map Subtype.val ++
          [fmt.dumps tx], tx)
  | _, _ => none

/-- The updates whose result line was printed. -/
def AckRun.printed (r : AckRun fmt) : List TxResult :=
  r.updates.filter fun tx => !contains tooEarly (fmt.dumps tx)

/-- `len(gas) >= 2`: the packet counts as one that updated the client. -/
def updated (gas : List ℕ) : Bool := 2 ≤ gas.length

/-! ## What stdout says -/

theorem lineGas_dumps (r : TxResult) : lineGas fmt (fmt.dumps r) = some r.gasUsed := by
  simp only [lineGas, fmt.strip_dumps, fmt.head_dumps, fmt.gas_used_dumps, fmt.loads_dumps,
    ne_eq, not_true_eq_false, Bool.true_eq_false, or_self, if_false]

theorem lineGas_of_head {line : Text} {c : Char} {cs : Text} (hline : line.dropWhile isSpace = c :: cs)
    (hspace : isSpace c = false) (hc : c ≠ '\x7b') : lineGas fmt line = none := by
  have hhead : (strip line).head? = some c := by
    rw [strip, hline, Devnet.Config.head?_dropTrailing_cons hspace]
  apply if_pos
  left
  rw [hhead]
  exact fun h => hc (Option.some.inj h)

theorem gasFromStdout_append (a b : List Text) :
    gasFromStdout fmt (a ++ b) = gasFromStdout fmt a ++ gasFromStdout fmt b :=
  List.filterMap_append

theorem gasFromStdout_quiet (lines : List (Quiet fmt)) :
    gasFromStdout fmt (lines.map Subtype.val) = [] := by
  rw [gasFromStdout, List.filterMap_eq_nil_iff]
  intro line hline
  obtain ⟨quiet, -, rfl⟩ := List.mem_map.mp hline
  exact quiet.property

/-- The gas of the result lines is that of the updates that were not sent again. -/
def Output.Tells (fmt : ResultFormat) (out : Output) : Prop :=
  gasFromStdout fmt out.stdout =
    (out.onChain.filter fun tx => !contains tooEarly (fmt.dumps tx)).map TxResult.gasUsed

theorem Output.Tells.append {a b : Output} (ha : a.Tells fmt) (hb : b.Tells fmt) :
    (a.append b).Tells fmt := by
  unfold Output.Tells Output.append at *
  rw [gasFromStdout_append, ha, hb, List.filter_append, List.map_append]

theorem tells_quiet (lines : List (Quiet fmt)) : Output.Tells fmt ⟨lines.map Subtype.val, []⟩ :=
  gasFromStdout_quiet lines

theorem waiting_quiet (attempt : ℕ) : lineGas fmt (waiting attempt) = none :=
  lineGas_of_head (c := 'a') rfl (by decide) (by decide)

theorem tells_early {send : SendTx fmt} (h : send.early = true) (attempt : ℕ) :
    Output.Tells fmt ⟨[waiting attempt], send.onChain⟩ := by
  have hline : gasFromStdout fmt [waiting attempt] = [] := by
    simp [gasFromStdout, waiting_quiet]
  rw [Output.Tells, hline]
  cases send with
  | refused early stderr => rfl
  | included r =>
      have hearly : contains tooEarly (fmt.dumps r) = true := h
      simp [SendTx.onChain, hearly]

theorem tells_result {send : SendTx fmt} (h : send.early = false) :
    Output.Tells fmt ⟨send.result, send.onChain⟩ := by
  cases send with
  | refused early stderr => exact gasFromStdout_quiet stderr
  | included r =>
      have hearly : contains tooEarly (fmt.dumps r) = false := h
      simp [Output.Tells, SendTx.result, SendTx.onChain, gasFromStdout, lineGas_dumps, hearly]

theorem tells_sendLoop (sends : ℕ → SendTx fmt) (left attempt : ℕ) :
    (sendLoop sends left attempt).Tells fmt := by
  induction left generalizing attempt with
  | zero =>
      have hquiet : lineGas fmt "gave up waiting for the chain clock to catch up".toList = none :=
        lineGas_of_head (c := 'g') rfl (by decide) (by decide)
      exact tells_quiet [⟨_, hquiet⟩]
  | succ left ih =>
      rw [sendLoop]
      cases hearly : (sends attempt).early with
      | true => exact (tells_early hearly attempt).append (ih (attempt + 1))
      | false => exact tells_result hearly

theorem UpdateCall.tells (call : UpdateCall fmt) : call.output.Tells fmt := by
  cases call with
  | unsent lines => exact tells_quiet lines
  | sent header sends => exact (tells_quiet [header]).append (tells_sendLoop sends 6 0)

/-- **The polling loop tells the gas of the updates it printed**, however many turns it takes. -/
theorem tells_pollLoop (proofSlot attempt : ℕ) (polls : List (Poll fmt)) :
    (pollLoop proofSlot attempt polls).1.Tells fmt := by
  induction polls generalizing attempt with
  | nil => exact tells_quiet []
  | cons poll polls ih =>
      have hturn : (Output.append (if attempt % 3 = 0 then poll.call.output else ⟨[], []⟩)
          ⟨poll.notes.map Subtype.val, []⟩).Tells fmt := by
        apply Output.Tells.append _ (tells_quiet poll.notes)
        split
        · exact poll.call.tells
        · exact tells_quiet []
      rw [pollLoop]
      cases usableSlot proofSlot poll.heights with
      | some slot => exact hturn
      | none =>
          cases poll.late with
          | true => exact hturn
          | false => exact hturn.append (ih (attempt + 1))

theorem gasFromStdout_stepAck {r : AckRun fmt} {stdout : List Text} {ack : TxResult}
    (h : stepAck r = some (stdout, ack)) :
    gasFromStdout fmt stdout = r.printed.map TxResult.gasUsed ++ [ack.gasUsed] := by
  have htold : gasFromStdout fmt (pollLoop r.proofSlot 0 r.polls).1.stdout =
      r.printed.map TxResult.gasUsed := tells_pollLoop r.proofSlot 0 r.polls
  unfold stepAck at h
  dsimp only at h
  split at h
  · split at h
    · cases h
    · obtain ⟨rfl, rfl⟩ := Prod.mk.inj (Option.some.inj h)
      simp only [gasFromStdout_append, gasFromStdout_quiet, htold, List.nil_append, List.append_nil]
      simp only [gasFromStdout, List.filterMap_cons, lineGas_dumps, List.filterMap_nil]
  · cases h

/-! ## What `ack_one` makes of it -/

theorem ackOne_gas (w : Int) (now : Time) (p : Packet) (updates : List ℕ) (ack : ℕ) :
    (ackOne w now p (.ok (updates ++ [ack]))).ackGas = ack ∧
      (ackOne w now p (.ok (updates ++ [ack]))).updateClientGasReturnLeg =
        updates.headD p.updateClientGasReturnLeg := by
  match updates with
  | [] => exact ⟨rfl, rfl⟩
  | [_] => exact ⟨rfl, rfl⟩
  | first :: second :: rest =>
      refine ⟨?_, rfl⟩
      change (second :: (rest ++ [ack])).getLast _ = ack
      exact List.getLast_append_singleton (second :: rest)

theorem updated_iff (updates : List ℕ) (ack : ℕ) :
    updated (updates ++ [ack]) = true ↔ updates ≠ [] := by
  cases updates with
  | nil => simp [updated]
  | cons u us => simp [updated]

/-- An update that succeeded was printed: its result has no log to wait for. -/
theorem mem_printed_of_code {r : AckRun fmt} {tx : TxResult} (h : tx ∈ r.updates) (hcode : tx.code = 0) :
    tx ∈ r.printed := by
  rw [AckRun.printed, List.mem_filter]
  exact ⟨h, by rw [fmt.no_log tx hcode]; rfl⟩

/-- **What is recorded accounts for the run exactly when** its updates together used what the first
printed one did (what was recorded before, if none was printed); and the packet counts as one that
updated the client rightly exactly when no update was printed or some update succeeded. -/
theorem ack_gas_accounted_iff (r : AckRun fmt) (stdout : List Text) (ack : TxResult)
    (hrun : stepAck r = some (stdout, ack)) (w : Int) (now : Time) (p : Packet) :
    ((ackOne w now p (.ok (gasFromStdout fmt stdout))).updateClientGasReturnLeg +
          (ackOne w now p (.ok (gasFromStdout fmt stdout))).ackGas =
        ((r.updates ++ [ack]).map TxResult.gasUsed).sum ↔
      (r.updates.map TxResult.gasUsed).sum =
        (r.printed.map TxResult.gasUsed).headD p.updateClientGasReturnLeg) ∧
    ((updated (gasFromStdout fmt stdout) = true ↔ ∃ tx ∈ r.updates, tx.code = 0) ↔
      (r.printed = [] ∨ ∃ tx ∈ r.updates, tx.code = 0)) := by
  rw [gasFromStdout_stepAck hrun, updated_iff]
  constructor
  · obtain ⟨hack, hupdate⟩ := ackOne_gas w now p (r.printed.map TxResult.gasUsed) ack.gasUsed
    rw [hack, hupdate, List.map_append, List.sum_append, List.map_singleton, List.sum_singleton]
    omega
  · have hsome : (∃ tx ∈ r.updates, tx.code = 0) → r.printed ≠ [] := by
      rintro ⟨tx, htx, hcode⟩
      exact List.ne_nil_of_mem (mem_printed_of_code htx hcode)
    rw [ne_eq, List.map_eq_nil_iff]
    constructor
    · intro h
      by_cases hnone : r.printed = []
      · exact .inl hnone
      · exact .inr (h.mp hnone)
    · intro h
      exact ⟨h.resolve_left, hsome⟩

/-! ## A format, and two runs -/

def gasLead : Text := "\x7b\"gas_used\": \"".toList

def codeLead : Text := "\", \"code\": ".toList

/-- The part of a failed result that its log is in. -/
def logPart (r : TxResult) : Text :=
  if r.code = 0 then [] else ", \"raw_log\": \"".toList ++ r.rawLog ++ "\"".toList

/-- The part of `json.dumps` that is read. -/
def dumpResult (r : TxResult) : Text :=
  gasLead ++ (digits r.gasUsed ++ (codeLead ++ (digits r.code ++ (logPart r ++ ['\x7d']))))

def loadGas (line : Text) : Option ℕ :=
  some (Nat.ofDigitChars 10 ((line.drop gasLead.length).takeWhile Char.isDigit) 0)

theorem isDigit_digits {n : ℕ} {c : Char} (h : c ∈ digits n) : c.isDigit = true :=
  Nat.isDigit_of_mem_toDigits (by decide) (by decide) h

theorem loadGas_dumpResult (r : TxResult) : loadGas (dumpResult r) = some r.gasUsed := by
  have hstop (rest : Text) : (codeLead ++ rest).takeWhile Char.isDigit = [] := rfl
  rw [loadGas, dumpResult, List.drop_left, List.takeWhile_append_of_pos fun c hc => isDigit_digits hc,
    hstop, List.append_nil, digits, Nat.ofDigitChars_ten_toDigits]

theorem strip_dumpResult (r : TxResult) : strip (dumpResult r) = dumpResult r := by
  have hlead (rest : Text) : (gasLead ++ rest).dropWhile isSpace = gasLead ++ rest := rfl
  have hend (body : Text) : dropTrailing isSpace (body ++ ['\x7d']) = body ++ ['\x7d'] := by
    rw [dropTrailing, List.reverse_append, List.reverse_singleton, List.singleton_append,
      List.dropWhile_cons_of_neg (by decide), List.reverse_cons, List.reverse_reverse]
  rw [strip, dumpResult, hlead]
  simp only [← List.append_assoc]
  exact hend _

theorem contains_dumpResult (r : TxResult) : contains "gas_used".toList (dumpResult r) = true := by
  rw [contains, List.any_eq_true]
  exact ⟨(dumpResult r).drop 2, (List.mem_tails _ _).mpr (List.drop_suffix 2 _), rfl⟩

theorem mem_of_contains {needle t : Text} (h : contains needle t = true) {c : Char} (hc : c ∈ needle) :
    c ∈ t := by
  rw [contains, List.any_eq_true] at h
  obtain ⟨rest, hrest, hlead⟩ := h
  have hmem : c ∈ rest := (List.isPrefixOf_iff_prefix.mp hlead).mem hc
  exact ((List.mem_tails _ _).mp hrest).mem hmem

/-- Outside its log a result has no letter `m`. -/
theorem not_contains_tooEarly {r : TxResult} (h : 'm' ∉ logPart r) :
    contains tooEarly (dumpResult r) = false := by
  rw [Bool.eq_false_iff]
  intro hearly
  have hm : 'm' ∈ dumpResult r := mem_of_contains hearly List.mem_cons_self
  have hdigit (n : ℕ) : 'm' ∉ digits n := fun hn => absurd (isDigit_digits hn) (by decide)
  have hgas : 'm' ∉ gasLead := by decide
  have hcode : 'm' ∉ codeLead := by decide
  simp only [dumpResult, List.mem_append, hdigit, hgas, hcode, h, false_or] at hm
  exact absurd hm (by decide)

/-- Results written and read back. -/
def resultFormat : ResultFormat where
  dumps := dumpResult
  loads := loadGas
  strip_dumps := strip_dumpResult
  head_dumps := fun _ => rfl
  gas_used_dumps := contains_dumpResult
  loads_dumps := loadGas_dumpResult
  no_log := fun _ hcode => not_contains_tooEarly (by rw [logPart, if_pos hcode]; exact List.not_mem_nil)

/-- A run that calls for these updates at its first and its fourth turn, and can then prove. -/
def updatesRun (first second : TxResult) : AckRun resultFormat where
  proofSlot := 64
  before := []
  polls :=
    let header : Quiet resultFormat := ⟨"updating".toList, lineGas_of_head rfl (by decide) (by decide)⟩
    [⟨.sent header fun _ => .included first, [32], false, []⟩, ⟨.unsent [], [32], false, []⟩,
      ⟨.unsent [], [32], false, []⟩, ⟨.sent header fun _ => .included second, [32, 64], false, []⟩]
  after := []
  ack := some (.included ⟨0, 5, []⟩)

theorem stepAck_updatesRun (first second : TxResult) :
    ∃ stdout, stepAck (updatesRun first second) = some (stdout, ⟨0, 5, []⟩) := ⟨_, rfl⟩

theorem updates_updatesRun (first second : TxResult) (hfirst : 'm' ∉ logPart first)
    (hsecond : 'm' ∉ logPart second) :
    (updatesRun first second).updates = [first, second] ∧
      (updatesRun first second).printed = [first, second] := by
  have h1 : contains tooEarly (resultFormat.dumps first) = false := not_contains_tooEarly hfirst
  have h2 : contains tooEarly (resultFormat.dumps second) = false := not_contains_tooEarly hsecond
  have hupdates : (updatesRun first second).updates = [first, second] := by
    simp [AckRun.updates, updatesRun, pollLoop, UpdateCall.output, sendLoop, SendTx.early,
      SendTx.onChain, Output.append, usableSlot, h1, h2]
  refine ⟨hupdates, ?_⟩
  simp [AckRun.printed, hupdates, h1, h2]

/-- A packet that is about to be acknowledged. -/
def unackedPacket : Packet := { seq := 0, amount := 1, status := .credited }

/-- An update that used no gas before it was rejected, and one that succeeded afterwards. -/
theorem ack_gas_accounted_iff_two :
    ∃ stdout, stepAck (updatesRun ⟨0, 3, []⟩ ⟨5, 0, []⟩) = some (stdout, ⟨0, 5, []⟩) ∧
      (ackOne 0 0 unackedPacket (.ok (gasFromStdout resultFormat stdout))).updateClientGasReturnLeg +
        (ackOne 0 0 unackedPacket (.ok (gasFromStdout resultFormat stdout))).ackGas = 8 ∧
      updated (gasFromStdout resultFormat stdout) = true := by
  obtain ⟨stdout, hrun⟩ := stepAck_updatesRun ⟨0, 3, []⟩ ⟨5, 0, []⟩
  obtain ⟨hupdates, hprinted⟩ := updates_updatesRun ⟨0, 3, []⟩ ⟨5, 0, []⟩ (by decide) (by decide)
  obtain ⟨hgas, hcounted⟩ := ack_gas_accounted_iff _ stdout _ hrun 0 0 unackedPacket
  rw [hupdates, hprinted] at hgas hcounted
  refine ⟨stdout, hrun, hgas.mpr rfl, ?_⟩
  have hsome : ∃ tx ∈ [TxResult.mk 0 3 [], ⟨5, 0, []⟩], tx.code = 0 := ⟨_, List.mem_cons_self, rfl⟩
  exact (hcounted.mpr (.inr hsome)).mpr hsome

/-- The gas of a second update is lost; and a packet whose updates all failed counts as one that
updated the client. -/
theorem second_update_lost :
    (∃ stdout, stepAck (updatesRun ⟨0, 3, []⟩ ⟨0, 4, []⟩) = some (stdout, ⟨0, 5, []⟩) ∧
      (ackOne 0 0 unackedPacket (.ok (gasFromStdout resultFormat stdout))).updateClientGasReturnLeg +
        (ackOne 0 0 unackedPacket (.ok (gasFromStdout resultFormat stdout))).ackGas = 8 ∧
      (((updatesRun ⟨0, 3, []⟩ ⟨0, 4, []⟩).updates ++ [TxResult.mk 0 5 []]).map TxResult.gasUsed).sum = 12) ∧
    ∃ stdout, stepAck (updatesRun ⟨5, 3, []⟩ ⟨5, 4, []⟩) = some (stdout, ⟨0, 5, []⟩) ∧
      updated (gasFromStdout resultFormat stdout) = true ∧
      ∀ tx ∈ (updatesRun ⟨5, 3, []⟩ ⟨5, 4, []⟩).updates, tx.code ≠ 0 := by
  constructor
  · obtain ⟨stdout, hrun⟩ := stepAck_updatesRun ⟨0, 3, []⟩ ⟨0, 4, []⟩
    obtain ⟨hupdates, hprinted⟩ := updates_updatesRun ⟨0, 3, []⟩ ⟨0, 4, []⟩ (by decide) (by decide)
    refine ⟨stdout, hrun, ?_, by rw [hupdates]; rfl⟩
    rw [gasFromStdout_stepAck hrun, hprinted]
    rfl
  · obtain ⟨stdout, hrun⟩ := stepAck_updatesRun ⟨5, 3, []⟩ ⟨5, 4, []⟩
    obtain ⟨hupdates, hprinted⟩ := updates_updatesRun ⟨5, 3, []⟩ ⟨5, 4, []⟩ (by decide) (by decide)
    refine ⟨stdout, hrun, ?_, by rw [hupdates]; decide⟩
    rw [gasFromStdout_stepAck hrun, hprinted]
    rfl

end PqcMigration.BatchScaling
