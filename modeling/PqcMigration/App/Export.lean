/-
# PqcMigration.App.Export — `ExportAppStateAndValidators` and `prepForZeroHeightGenesis` of `export.go`.

Before an export for height zero every validator, delegation, redelegation, unbonding delegation and
signing info is prepared, in one pass after another. The keepers belong to the SDK: what they answer is a
parameter (`Sdk`), and where they fail is one as well (`Failures`: an error for each call whose error the
source keeps, at each item). The two withdrawals of rewards have theirs thrown away on purpose and are not
among them; a keeper that panics of its own accord ends the program, and is left out.

The preparation is the list of the calls it has carried out, each with the height of its context; the
stores are then as these calls leave them. Records are stored under the key they were read from.

An error ends the program nearly everywhere, by a panic or by `log.Fatal`. Two do not: the second
`IterateValidators` has its error overwritten, and one from the iterator's `Close` is logged and ends the
preparation quietly. `export_prepared_iff` says that these are the only ones, `jailing_iff` which
validators the preparation jails.
-/
import PqcMigration.Lib.Dict
import PqcMigration.Lib.Iterate
import PqcMigration.Lib.OrdMap

namespace PqcMigration.App.Export

open Lib

abbrev Text := List Char

/-! ## The stores -/

structure Validator where
  /-- `OperatorAddress` -/
  operator : Text
  jailed : Bool
  unbondingHeight : ℤ
  deriving DecidableEq

structure Delegation where
  delegatorAddress : Text
  validatorAddress : Text
  deriving DecidableEq

/-- `Redelegation` and `UnbondingDelegation`: the creation height of each entry. -/
structure Pending where
  creationHeights : List ℤ
  deriving DecidableEq

/-- `ValidatorSigningInfo` -/
structure SigningInfo where
  startHeight : ℤ
  deriving DecidableEq

/-- The stores that are prepared; keys and addresses are byte strings, of which only the order is used. -/
structure Chain (A : Type) [LinearOrder A] where
  lastBlockHeight : ℤ
  validators : OrdMap A Validator
  delegations : List Delegation
  redelegations : OrdMap A Pending
  unbondingDelegations : OrdMap A Pending
  signingInfos : OrdMap A SigningInfo

/-- A call that prepares something. -/
inductive Call (A : Type) where
  | withdrawValidatorCommission (operator : Text)
  | withdrawDelegationRewards (d : Delegation)
  | deleteAllValidatorSlashEvents
  | deleteAllValidatorHistoricalRewards
  /-- with the outstanding rewards of the validator added to the community pool -/
  | setFeePool (operator : Text)
  | afterValidatorCreated (operator : Text)
  | beforeDelegationCreated (d : Delegation)
  | afterDelegationModified (d : Delegation)
  | setRedelegation (key : A) (red : Pending)
  | setUnbondingDelegation (key : A) (ubd : Pending)
  | setValidator (addr : A) (validator : Validator)
  | applyAndReturnValidatorSetUpdates
  | prepareConsKeyRotationsForZeroHeightExport
  | setValidatorSigningInfo (addr : A) (info : SigningInfo)
  deriving DecidableEq

/-- A call, and the block height of its context. -/
structure Step (A : Type) where
  height : ℤ
  call : Call A
  deriving DecidableEq

/-! ## The SDK -/

/-- Validator addresses are read in lower or in upper case and printed in lower case. Updates of the
validator set bond and unbond, they jail nobody. -/
structure Sdk (A : Type) [LinearOrder A] where
  valAddressFromBech32 : Text → Except Text A
  /-- `ValAddress.String` -/
  valAddressString : A → Text
  valAddressFromBech32_iff : ∀ t a, valAddressFromBech32 t = .ok a ↔
    t = (valAddressString a).map Char.toLower ∨ t = (valAddressString a).map Char.toUpper
  valAddressString_lower : ∀ a, (valAddressString a).map Char.toLower = valAddressString a
  /-- `ValidatorAddressCodec().StringToBytes` -/
  stringToBytes : Text → Except Text A
  accAddressFromBech32 : Text → Except Text A
  /-- what `ApplyAndReturnValidatorSetUpdates` makes of the validators -/
  validatorSetUpdates : OrdMap A Validator → OrdMap A Validator
  validatorSetUpdates_jailed : ∀ vs a,
    ((validatorSetUpdates vs).get? a).map Validator.jailed = (vs.get? a).map Validator.jailed
  /-- the last four read the stores in a context of this height -/
  exportGenesisForModules : ℤ → Chain A → List Text → Text
  marshalIndent : Text → Text
  writeValidators : ℤ → Chain A → List Text
  getConsensusParams : ℤ → Chain A → Text

/-- Which calls fail, and with what error. A number is that of the item in its pass; an iterator fails
before an item, or after the last. -/
structure Failures where
  withdrawIterator : ℕ → Option Text
  getAllDelegations : Option Text
  reinitIterator : ℕ → Option Text
  getValidatorOutstandingRewardsCoins : ℕ → Option Text
  feePoolGet : ℕ → Option Text
  feePoolSet : ℕ → Option Text
  afterValidatorCreated : ℕ → Option Text
  beforeDelegationCreated : ℕ → Option Text
  afterDelegationModified : ℕ → Option Text
  redelegationIterator : ℕ → Option Text
  setRedelegation : ℕ → Option Text
  unbondingIterator : ℕ → Option Text
  setUnbondingDelegation : ℕ → Option Text
  getValidator : ℕ → Option Text
  setValidator : ℕ → Option Text
  closeIterator : Option Text
  validatorSetUpdates : Option Text
  consKeyRotations : Option Text
  signingInfoIterator : ℕ → Option Text
  setValidatorSigningInfo : ℕ → Option Text
  exportGenesisForModules : Option Text
  marshalIndent : Option Text
  writeValidators : Option Text

/-- How the program ends before its time. -/
inductive Exit where
  | panic (message : Text)
  /-- `log.Fatal` -/
  | fatal (message : Text)
  deriving DecidableEq

/-- `if err != nil { … }` where the branch ends the program. -/
def check (exit : Text → Exit) : Option Text → Except Exit Unit
  | some err => .error (exit err)
  | none => .ok ()

/-- `panic(fmt.Errorf("…: %w", err))` -/
def wrapped (message : String) (err : Text) : Exit := .panic (message.toList ++ err)

variable {A : Type} [LinearOrder A] (sdk : Sdk A) (f : Failures) (s : Chain A)

/-! ## What is to be done for each item -/

def commissionSteps (e : A × Validator) : List (Step A) :=
  [⟨s.lastBlockHeight, .withdrawValidatorCommission e.2.operator⟩]

def rewardSteps (d : Delegation) : List (Step A) := [⟨s.lastBlockHeight, .withdrawDelegationRewards d⟩]

/-- The fee distribution is set up anew at height zero. -/
def reinitValidatorSteps (e : A × Validator) : List (Step A) :=
  [⟨0, .setFeePool e.2.operator⟩, ⟨0, .afterValidatorCreated e.2.operator⟩]

def reinitDelegationSteps (d : Delegation) : List (Step A) :=
  [⟨0, .beforeDelegationCreated d⟩, ⟨0, .afterDelegationModified d⟩]

def resetPending (p : Pending) : Pending := ⟨p.creationHeights.map fun _ => 0⟩

def redelegationSteps (e : A × Pending) : List (Step A) :=
  [⟨s.lastBlockHeight, .setRedelegation e.1 (resetPending e.2)⟩]

def unbondingSteps (e : A × Pending) : List (Step A) :=
  [⟨s.lastBlockHeight, .setUnbondingDelegation e.1 (resetPending e.2)⟩]

/-- An entry of the list is looked up as it was given. -/
def resetValidator (jailAllowedAddrs : List Text) (addr : A) (validator : Validator) : Validator :=
  { validator with
    unbondingHeight := 0
    jailed := validator.jailed ||
      (decide (0 < jailAllowedAddrs.length) && !jailAllowedAddrs.contains (sdk.valAddressString addr)) }

def validatorSteps (jailAllowedAddrs : List Text) (e : A × Validator) : List (Step A) :=
  [⟨s.lastBlockHeight, .setValidator e.1 (resetValidator sdk jailAllowedAddrs e.1 e.2)⟩]

def signingInfoSteps (e : A × SigningInfo) : List (Step A) :=
  [⟨s.lastBlockHeight, .setValidatorSigningInfo e.1 { e.2 with startHeight := 0 }⟩]

/-! ## The passes -/

def withdrawCommission (_ : ℕ) (e : A × Validator) : Except Exit (List (Step A)) := do
  let _ ← (sdk.stringToBytes e.2.operator).mapError .panic
  return commissionSteps s e

def withdrawRewards (_ : ℕ) (d : Delegation) : Except Exit (List (Step A)) := do
  let _ ← (sdk.valAddressFromBech32 d.validatorAddress).mapError .panic
  let _ ← (sdk.accAddressFromBech32 d.delegatorAddress).mapError .panic
  return rewardSteps s d

def reinitValidator (i : ℕ) (e : A × Validator) : Except Exit (List (Step A)) := do
  let _ ← (sdk.stringToBytes e.2.operator).mapError .panic
  check .panic (f.getValidatorOutstandingRewardsCoins i)
  check .panic (f.feePoolGet i)
  check .panic (f.feePoolSet i)
  check .panic (f.afterValidatorCreated i)
  return reinitValidatorSteps e

def reinitDelegation (i : ℕ) (d : Delegation) : Except Exit (List (Step A)) := do
  let _ ← (sdk.valAddressFromBech32 d.validatorAddress).mapError .panic
  let _ ← (sdk.accAddressFromBech32 d.delegatorAddress).mapError .panic
  check (wrapped "error while incrementing period: ") (f.beforeDelegationCreated i)
  check (wrapped "error while creating a new delegation period record: ") (f.afterDelegationModified i)
  return reinitDelegationSteps d

def resetRedelegation (i : ℕ) (e : A × Pending) : Except Exit (List (Step A)) := do
  check .panic (f.setRedelegation i)
  return redelegationSteps s e

def resetUnbonding (i : ℕ) (e : A × Pending) : Except Exit (List (Step A)) := do
  check .panic (f.setUnbondingDelegation i)
  return unbondingSteps s e

def resetBond (jailAllowedAddrs : List Text) (i : ℕ) (e : A × Validator) :
    Except Exit (List (Step A)) := do
  check (fun _ => .panic "expected validator, not found".toList) (f.getValidator i)
  check (wrapped "unable to set validator: ") (f.setValidator i)
  return validatorSteps sdk s jailAllowedAddrs e

def resetSigningInfo (i : ℕ) (e : A × SigningInfo) : Except Exit (List (Step A)) := do
  check (fun _ => .panic "unable to set validator signing info".toList) (f.setValidatorSigningInfo i)
  return signingInfoSteps s e

/-! ## The preparation -/

/-- Handle fee distribution state. -/
def prepDistribution : Except Exit (List (Step A)) := do
  let commissions ← iterate f.withdrawIterator (withdrawCommission sdk s) 0 s.validators.entries
  check .panic commissions.2
  check .panic f.getAllDelegations
  let rewards ← each (withdrawRewards sdk s) 0 s.delegations
  -- the error of this iteration is never looked at
  let reinit ← iterate f.reinitIterator (reinitValidator sdk f) 0 s.validators.entries
  let delegations ← each (reinitDelegation sdk f) 0 s.delegations
  return commissions.1.flatten ++ rewards.flatten ++
    [⟨s.lastBlockHeight, .deleteAllValidatorSlashEvents⟩,
      ⟨s.lastBlockHeight, .deleteAllValidatorHistoricalRewards⟩] ++
    reinit.1.flatten ++ delegations.flatten

/-- Handle staking state, up to the end of the reverse iteration over the validators. -/
def prepStaking (jailAllowedAddrs : List Text) : Except Exit (List (Step A)) := do
  let redelegations ← iterate f.redelegationIterator (resetRedelegation f s) 0 s.redelegations.entries
  check (wrapped "error while iterating redelegations: ") redelegations.2
  let unbondings ← iterate f.unbondingIterator (resetUnbonding f s) 0 s.unbondingDelegations.entries
  check (wrapped "error while iterating unbonding delegations: ") unbondings.2
  let bonds ← each (resetBond sdk f s jailAllowedAddrs) 0 s.validators.entries.reverse
  return redelegations.1.flatten ++ unbondings.1.flatten ++ bonds.flatten

/-- The validator set, and the slashing state. -/
def prepSlashing : Except Exit (List (Step A)) := do
  check .fatal f.validatorSetUpdates
  check .fatal f.consKeyRotations
  let infos ← iterate f.signingInfoIterator (resetSigningInfo f s) 0 s.signingInfos.entries
  check (wrapped "error while iterating validator signing info: ") infos.2
  return [⟨s.lastBlockHeight, .applyAndReturnValidatorSetUpdates⟩,
    ⟨s.lastBlockHeight, .prepareConsKeyRotationsForZeroHeightExport⟩] ++ infos.1.flatten

structure Preparation (A : Type) where
  steps : List (Step A)
  /-- the errors in the log -/
  logged : List Text

def prepForZeroHeightGenesis (jailAllowedAddrs : List Text) : Except Exit (Preparation A) := do
  let _ ← each (fun _ addr => (sdk.valAddressFromBech32 addr).mapError Exit.fatal) 0 jailAllowedAddrs
  let distribution ← prepDistribution sdk f s
  let staking ← prepStaking sdk f s jailAllowedAddrs
  match f.closeIterator with
  | some err =>
      return ⟨distribution ++ staking,
        ["error while closing the key-value store reverse prefix iterator: ".toList ++ err]⟩
  | none => do
      let slashing ← prepSlashing f s
      return ⟨distribution ++ staking ++ slashing, []⟩

/-- What a call makes of the stores; the distribution module keeps its own. -/
def Chain.apply (s : Chain A) (step : Step A) : Chain A :=
  match step.call with
  | .setRedelegation key red => { s with redelegations := s.redelegations.insert key red }
  | .setUnbondingDelegation key ubd =>
      { s with unbondingDelegations := s.unbondingDelegations.insert key ubd }
  | .setValidator addr validator => { s with validators := s.validators.insert addr validator }
  | .applyAndReturnValidatorSetUpdates => { s with validators := sdk.validatorSetUpdates s.validators }
  | .setValidatorSigningInfo addr info => { s with signingInfos := s.signingInfos.insert addr info }
  | _ => s

/-- The stores after the preparation. -/
def Chain.prepared (s : Chain A) (p : Preparation A) : Chain A := p.steps.foldl (Chain.apply sdk) s

/-! ## The export -/

structure ExportedApp where
  appState : Text
  validators : List Text
  height : ℤ
  consensusParams : Text
  deriving DecidableEq

/-- `servertypes.ExportedApp{}` -/
def ExportedApp.zero : ExportedApp := ⟨[], [], 0, []⟩

/-- What is exported from the stores, and the error. -/
def exportFrom (height ctxHeight : ℤ) (s : Chain A) (modulesToExport : List Text) :
    ExportedApp × Option Text :=
  match f.exportGenesisForModules with
  | some err => (.zero, some err)
  | none =>
      match f.marshalIndent with
      | some err => (.zero, some err)
      | none =>
          (⟨sdk.marshalIndent (sdk.exportGenesisForModules ctxHeight s modulesToExport),
            sdk.writeValidators ctxHeight s, height, sdk.getConsensusParams ctxHeight s⟩,
            f.writeValidators)

def exportAppStateAndValidators (forZeroHeight : Bool) (jailAllowedAddrs modulesToExport : List Text) :
    Except Exit (ExportedApp × Option Text) :=
  if forZeroHeight then do
    let p ← prepForZeroHeightGenesis sdk f s jailAllowedAddrs
    return exportFrom sdk f 0 0 (s.prepared sdk p) modulesToExport
  else
    return exportFrom sdk f (s.lastBlockHeight + 1) s.lastBlockHeight s modulesToExport

/-! ## What a pass that returns has done -/

/-- The calls of the distribution pass when `n` validators are set up anew. -/
def distributionSteps (n : ℕ) : List (Step A) :=
  s.validators.entries.flatMap (commissionSteps s) ++ s.delegations.flatMap (rewardSteps s) ++
    [⟨s.lastBlockHeight, .deleteAllValidatorSlashEvents⟩,
      ⟨s.lastBlockHeight, .deleteAllValidatorHistoricalRewards⟩] ++
    (s.validators.entries.take n).flatMap reinitValidatorSteps ++
    s.delegations.flatMap reinitDelegationSteps

def stakingSteps (jailAllowedAddrs : List Text) : List (Step A) :=
  s.redelegations.entries.flatMap (redelegationSteps s) ++
    s.unbondingDelegations.entries.flatMap (unbondingSteps s) ++
    s.validators.entries.reverse.flatMap (validatorSteps sdk s jailAllowedAddrs)

def slashingSteps : List (Step A) :=
  [⟨s.lastBlockHeight, .applyAndReturnValidatorSetUpdates⟩,
    ⟨s.lastBlockHeight, .prepareConsKeyRotationsForZeroHeightExport⟩] ++
    s.signingInfos.entries.flatMap (signingInfoSteps s)

/-- Every call that is to be made, in order. -/
def plannedSteps (jailAllowedAddrs : List Text) : List (Step A) :=
  distributionSteps s s.validators.entries.length ++ stakingSteps sdk s jailAllowedAddrs ++ slashingSteps s

section

variable {sdk f s}

theorem check_ok {exit : Text → Exit} {o : Option Text} {u : Unit} (h : check exit o = .ok u) : o = none := by
  cases o with
  | none => rfl
  | some err => cases h

/-- What comes after a check that passed. -/
theorem of_then {ε α β : Type} {x : Except ε α} {y : Except ε β} {b : β} (h : (x >>= fun _ => y) = .ok b) :
    y = .ok b := by
  obtain ⟨_, -, hy⟩ := except_bind_eq_ok h
  exact hy

theorem withdrawCommission_ok (i : ℕ) (e : A × Validator) (y : List (Step A))
    (h : withdrawCommission sdk s i e = .ok y) : y = commissionSteps s e :=
  (Except.ok.inj (of_then h)).symm

theorem withdrawRewards_ok (i : ℕ) (d : Delegation) (y : List (Step A))
    (h : withdrawRewards sdk s i d = .ok y) : y = rewardSteps s d :=
  (Except.ok.inj (of_then (of_then h))).symm

theorem reinitValidator_ok (i : ℕ) (e : A × Validator) (y : List (Step A))
    (h : reinitValidator sdk f i e = .ok y) : y = reinitValidatorSteps e :=
  (Except.ok.inj (of_then (of_then (of_then (of_then (of_then h)))))).symm

theorem reinitDelegation_ok (i : ℕ) (d : Delegation) (y : List (Step A))
    (h : reinitDelegation sdk f i d = .ok y) : y = reinitDelegationSteps d :=
  (Except.ok.inj (of_then (of_then (of_then (of_then h))))).symm

theorem resetRedelegation_ok (i : ℕ) (e : A × Pending) (y : List (Step A))
    (h : resetRedelegation f s i e = .ok y) : y = redelegationSteps s e :=
  (Except.ok.inj (of_then h)).symm

theorem resetUnbonding_ok (i : ℕ) (e : A × Pending) (y : List (Step A))
    (h : resetUnbonding f s i e = .ok y) : y = unbondingSteps s e :=
  (Except.ok.inj (of_then h)).symm

theorem resetBond_ok {jailAllowedAddrs : List Text} (i : ℕ) (e : A × Validator) (y : List (Step A))
    (h : resetBond sdk f s jailAllowedAddrs i e = .ok y) : y = validatorSteps sdk s jailAllowedAddrs e :=
  (Except.ok.inj (of_then (of_then h))).symm

theorem resetSigningInfo_ok (i : ℕ) (e : A × SigningInfo) (y : List (Step A))
    (h : resetSigningInfo f s i e = .ok y) : y = signingInfoSteps s e :=
  (Except.ok.inj (of_then h)).symm

/-- An iteration whose error is checked has handled every item. -/
theorem iterate_checked {α β : Type} {fails : ℕ → Option Text} {body : ℕ → α → Except Exit (List β)}
    {g : α → List β} (hbody : ∀ i x y, body i x = .ok y → y = g x) {xs : List α}
    {r : List (List β) × Option Text} {exit : Text → Exit} {u : Unit}
    (h : iterate fails body 0 xs = .ok r) (hcheck : check exit r.2 = .ok u) :
    r.1.flatten = xs.flatMap g := by
  obtain ⟨ys, err⟩ := r
  obtain rfl : err = none := check_ok hcheck
  rw [iterate_ok_none hbody h, List.flatMap_def]

theorem prepDistribution_ok {steps : List (Step A)} (h : prepDistribution sdk f s = .ok steps) :
    ∃ n ≤ s.validators.entries.length, steps = distributionSteps s n ∧
      (n = s.validators.entries.length ↔ ∀ j < s.validators.entries.length, f.reinitIterator j = none) := by
  obtain ⟨commissions, hcommissions, h⟩ := except_bind_eq_ok h
  obtain ⟨_, hchecked, h⟩ := except_bind_eq_ok h
  obtain ⟨rewards, hrewards, h⟩ := except_bind_eq_ok (of_then h)
  obtain ⟨reinit, hreinit, h⟩ := except_bind_eq_ok h
  obtain ⟨delegations, hdelegations, h⟩ := except_bind_eq_ok h
  obtain ⟨n, hn, hdone, hall, -⟩ := iterate_ok reinitValidator_ok hreinit
  refine ⟨n, hn, ?_, by simpa only [Nat.zero_add] using hall⟩
  rw [← Except.ok.inj h, iterate_checked withdrawCommission_ok hcommissions hchecked,
    each_ok withdrawRewards_ok hrewards, hdone, each_ok reinitDelegation_ok hdelegations]
  simp only [distributionSteps, List.flatMap_def]

theorem prepStaking_ok {jailAllowedAddrs : List Text} {steps : List (Step A)}
    (h : prepStaking sdk f s jailAllowedAddrs = .ok steps) : steps = stakingSteps sdk s jailAllowedAddrs := by
  obtain ⟨redelegations, hredelegations, h⟩ := except_bind_eq_ok h
  obtain ⟨_, hchecked, h⟩ := except_bind_eq_ok h
  obtain ⟨unbondings, hunbondings, h⟩ := except_bind_eq_ok h
  obtain ⟨_, hchecked', h⟩ := except_bind_eq_ok h
  obtain ⟨bonds, hbonds, h⟩ := except_bind_eq_ok h
  rw [← Except.ok.inj h, iterate_checked resetRedelegation_ok hredelegations hchecked,
    iterate_checked resetUnbonding_ok hunbondings hchecked', each_ok resetBond_ok hbonds, stakingSteps,
    ← List.flatMap_def]

theorem prepSlashing_ok {steps : List (Step A)} (h : prepSlashing f s = .ok steps) :
    steps = slashingSteps s := by
  obtain ⟨infos, hinfos, h⟩ := except_bind_eq_ok (of_then (of_then h))
  obtain ⟨_, hchecked, h⟩ := except_bind_eq_ok h
  rw [← Except.ok.inj h, iterate_checked resetSigningInfo_ok hinfos hchecked, slashingSteps]

/-- **What a preparation that returns has done.** Every call, but for validators that the second iteration
did not come to, and but for everything after an iterator that does not close. -/
theorem prep_ok {jailAllowedAddrs : List Text} {p : Preparation A}
    (h : prepForZeroHeightGenesis sdk f s jailAllowedAddrs = .ok p) :
    ∃ n ≤ s.validators.entries.length,
      p.steps = distributionSteps s n ++ stakingSteps sdk s jailAllowedAddrs ++
        (if f.closeIterator = none then slashingSteps s else []) ∧
      (n = s.validators.entries.length ↔ ∀ j < s.validators.entries.length, f.reinitIterator j = none) := by
  obtain ⟨distribution, hdistribution, h⟩ := except_bind_eq_ok (of_then h)
  obtain ⟨staking, hstaking, h⟩ := except_bind_eq_ok h
  obtain ⟨n, hn, rfl, hall⟩ := prepDistribution_ok hdistribution
  obtain rfl := prepStaking_ok hstaking
  refine ⟨n, hn, ?_, hall⟩
  cases hclose : f.closeIterator with
  | some err =>
      rw [hclose] at h
      rw [← Except.ok.inj h, if_neg (by simp), List.append_nil]
  | none =>
      rw [hclose] at h
      obtain ⟨slashing, hslashing, h⟩ := except_bind_eq_ok h
      rw [← Except.ok.inj h, prepSlashing_ok hslashing, if_pos rfl]

/-! ## Quiet failures -/

theorem length_distributionSteps {n : ℕ} (hn : n ≤ s.validators.entries.length) :
    (distributionSteps s n).length + 2 * s.validators.entries.length =
      (distributionSteps s s.validators.entries.length).length + 2 * n := by
  have hreinit : ∀ m ≤ s.validators.entries.length,
      ((s.validators.entries.take m).flatMap (reinitValidatorSteps (A := A))).length = 2 * m := by
    intro m hm
    rw [List.length_flatMap]
    show ((s.validators.entries.take m).map fun _ => 2).sum = 2 * m
    rw [List.map_const', List.sum_replicate_nat, List.length_take, Nat.min_eq_left hm, Nat.mul_comm]
  simp only [distributionSteps, List.length_append, hreinit n hn, hreinit _ (Nat.le_refl _)]
  omega

/-- **Which errors are quiet.** For every chain, every list and every pattern of failures: where an export
for height zero returns without error, every call of the preparation was carried out just if the second
iteration over the validators did not fail before one of them and the iterator closed. -/
theorem export_prepared_iff {jailAllowedAddrs modulesToExport : List Text} {app : ExportedApp}
    (h : exportAppStateAndValidators sdk f s true jailAllowedAddrs modulesToExport = .ok (app, none)) :
    ∃ p, prepForZeroHeightGenesis sdk f s jailAllowedAddrs = .ok p ∧
      (p.steps = plannedSteps sdk s jailAllowedAddrs ↔
        (∀ j < s.validators.entries.length, f.reinitIterator j = none) ∧ f.closeIterator = none) := by
  obtain ⟨p, hp, -⟩ := except_bind_eq_ok h
  refine ⟨p, hp, ?_⟩
  obtain ⟨n, hn, hsteps, hall⟩ := prep_ok hp
  rw [hsteps, ← hall]
  constructor
  · -- a call that is missing makes the list shorter
    intro hplanned
    have hlength := congrArg List.length hplanned
    have hshort := length_distributionSteps hn
    simp only [plannedSteps, List.length_append] at hlength
    have hslashing : 2 ≤ (slashingSteps s).length := by
      rw [slashingSteps, List.length_append]
      exact Nat.le_add_right 2 _
    by_cases hclose : f.closeIterator = none
    · rw [if_pos hclose] at hlength
      exact ⟨by omega, hclose⟩
    · rw [if_neg hclose, List.length_nil] at hlength
      omega
  · rintro ⟨rfl, hclose⟩
    rw [if_pos hclose, plannedSteps]

/-! ## Who is jailed -/

/-- The flag a call sets. -/
def flagOf (step : Step A) : Option (A × Bool) :=
  match step.call with
  | .setValidator addr validator => some (addr, validator.jailed)
  | _ => none

def Chain.jailed (s : Chain A) (a : A) : Option Bool := (s.validators.get? a).map Validator.jailed

theorem jailed_apply (s : Chain A) (step : Step A) :
    (s.apply sdk step).jailed = assign s.jailed (flagOf step).toList := by
  obtain ⟨height, call⟩ := step
  cases call with
  | setValidator addr validator =>
      funext a
      show ((s.validators.insert addr validator).get? a).map Validator.jailed =
        Function.update s.jailed addr (some validator.jailed) a
      by_cases ha : a = addr
      · rw [ha, OrdMap.get?_insert_self, Function.update_self]
        rfl
      · rw [OrdMap.get?_insert_of_ne _ ha, Function.update_of_ne ha]
        rfl
  | applyAndReturnValidatorSetUpdates =>
      funext a
      exact sdk.validatorSetUpdates_jailed s.validators a
  | _ => rfl

/-- The flags after some calls: the last one set counts. -/
theorem jailed_foldl (s : Chain A) (steps : List (Step A)) :
    (steps.foldl (Chain.apply sdk) s).jailed = assign s.jailed (steps.filterMap flagOf) := by
  induction steps generalizing s with
  | nil => rfl
  | cons step steps ih =>
      rw [List.foldl_cons, ih, jailed_apply, ← assign_append]
      congr 1
      cases hflag : flagOf step with
      | none => rw [List.filterMap_cons_none hflag, Option.toList_none, List.nil_append]
      | some kv => rw [List.filterMap_cons_some hflag, Option.toList_some, List.singleton_append]

omit [LinearOrder A] in
theorem flags_flatMap {α : Type} {g : α → List (Step A)} {flags : α → List (A × Bool)}
    (hg : ∀ x, (g x).filterMap flagOf = flags x) (xs : List α) :
    (xs.flatMap g).filterMap flagOf = xs.flatMap flags := by
  rw [List.filterMap_flatMap]
  simp only [hg]

omit [LinearOrder A] in
theorem flags_none {α : Type} {g : α → List (Step A)} (hg : ∀ x, (g x).filterMap flagOf = [])
    (xs : List α) : (xs.flatMap g).filterMap flagOf = [] := by
  rw [flags_flatMap hg]
  simp

theorem flags_distribution (n : ℕ) : (distributionSteps s n).filterMap flagOf = [] := by
  simp only [distributionSteps, List.filterMap_append, flags_none (g := commissionSteps s) fun _ => rfl,
    flags_none (g := rewardSteps s) fun _ => rfl, flags_none (g := reinitValidatorSteps) fun _ => rfl,
    flags_none (g := reinitDelegationSteps (A := A)) fun _ => rfl, List.nil_append, List.append_nil]
  rfl

/-- Only the pass over the validators sets flags, and it comes to every validator. -/
theorem flags_staking (jailAllowedAddrs : List Text) :
    (stakingSteps sdk s jailAllowedAddrs).filterMap flagOf = s.validators.entries.reverse.map fun e =>
      (e.1, (resetValidator sdk jailAllowedAddrs e.1 e.2).jailed) := by
  rw [stakingSteps, List.filterMap_append, List.filterMap_append,
    flags_none (g := redelegationSteps s) fun _ => rfl, flags_none (g := unbondingSteps s) fun _ => rfl,
    flags_flatMap (g := validatorSteps sdk s jailAllowedAddrs) fun _ => rfl, List.nil_append, List.nil_append,
    List.map_eq_flatMap]
  rfl

theorem flags_slashing : (slashingSteps s).filterMap flagOf = [] := by
  rw [slashingSteps, List.filterMap_append, flags_none (g := signingInfoSteps s) fun _ => rfl]
  rfl

theorem flags_of_prep {jailAllowedAddrs : List Text} {p : Preparation A}
    (h : prepForZeroHeightGenesis sdk f s jailAllowedAddrs = .ok p) :
    p.steps.filterMap flagOf = s.validators.entries.reverse.map fun e =>
      (e.1, (resetValidator sdk jailAllowedAddrs e.1 e.2).jailed) := by
  obtain ⟨n, -, hsteps, -⟩ := prep_ok h
  have hlast : (if f.closeIterator = none then slashingSteps s else []).filterMap flagOf = [] := by
    split
    · exact flags_slashing
    · rfl
  rw [hsteps, List.filterMap_append, List.filterMap_append, flags_distribution, flags_staking, hlast,
    List.append_nil, List.nil_append]

theorem jailed_prepared {jailAllowedAddrs : List Text} {p : Preparation A}
    (h : prepForZeroHeightGenesis sdk f s jailAllowedAddrs = .ok p) {a : A} {v : Validator}
    (hv : s.validators.get? a = some v) :
    (s.prepared sdk p).jailed a = some (resetValidator sdk jailAllowedAddrs a v).jailed := by
  rw [Chain.prepared, jailed_foldl, flags_of_prep h]
  apply assign_of_mem
  · exact List.mem_map.mpr ⟨(a, v), List.mem_reverse.mpr (OrdMap.get?_eq_some_iff.mp hv), rfl⟩
  · intro flag hflag
    obtain ⟨⟨a', v'⟩, hmem, heq⟩ := List.mem_map.mp hflag
    obtain ⟨rfl, rfl⟩ := Prod.mk.inj heq
    have hv' : s.validators.get? a' = some v' := OrdMap.get?_eq_some_iff.mpr (List.mem_reverse.mp hmem)
    obtain rfl : v = v' := Option.some.inj (hv.symm.trans hv')
    rfl

/-- An entry denotes an address as it is printed, or in upper case. -/
theorem denoted_iff {jailAllowedAddrs : List Text} {a : A} :
    (∃ addr ∈ jailAllowedAddrs, sdk.valAddressFromBech32 addr = .ok a) ↔
      sdk.valAddressString a ∈ jailAllowedAddrs ∨
        (sdk.valAddressString a).map Char.toUpper ∈ jailAllowedAddrs := by
  simp only [sdk.valAddressFromBech32_iff, sdk.valAddressString_lower]
  constructor
  · rintro ⟨addr, hmem, rfl | rfl⟩
    · exact Or.inl hmem
    · exact Or.inr hmem
  · rintro (hmem | hmem)
    · exact ⟨_, hmem, Or.inl rfl⟩
    · exact ⟨_, hmem, Or.inr rfl⟩

theorem resetValidator_jailed_iff {jailAllowedAddrs : List Text} {a : A} {v : Validator} :
    (resetValidator sdk jailAllowedAddrs a v).jailed = true ↔
      v.jailed = true ∨ (jailAllowedAddrs ≠ [] ∧ sdk.valAddressString a ∉ jailAllowedAddrs) := by
  simp [resetValidator, List.length_pos_iff]

variable (sdk s) in
/-- A validator is jailed after the preparation if it was before, or if there is a list and no entry
denotes its address. -/
def JailedAsListed (t : Chain A) (jailAllowedAddrs : List Text) : Prop :=
  ∀ a v, s.validators.get? a = some v → ∃ w, t.validators.get? a = some w ∧
    (w.jailed = true ↔ v.jailed = true ∨
      (jailAllowedAddrs ≠ [] ∧ ¬ ∃ addr ∈ jailAllowedAddrs, sdk.valAddressFromBech32 addr = .ok a))

/-- **Who is jailed.** The preparation jails as the list says just if every validator that was free, and
that the list has in upper case, is in the list in lower case as well. -/
theorem jailing_iff {jailAllowedAddrs : List Text} {p : Preparation A}
    (h : prepForZeroHeightGenesis sdk f s jailAllowedAddrs = .ok p) :
    JailedAsListed sdk s (s.prepared sdk p) jailAllowedAddrs ↔
      ∀ a v, s.validators.get? a = some v → v.jailed = false →
        (sdk.valAddressString a).map Char.toUpper ∈ jailAllowedAddrs →
          sdk.valAddressString a ∈ jailAllowedAddrs := by
  have hflag : ∀ a v, s.validators.get? a = some v → ∃ w, (s.prepared sdk p).validators.get? a = some w ∧
      w.jailed = (resetValidator sdk jailAllowedAddrs a v).jailed :=
    fun a v hv => Option.map_eq_some_iff.mp (jailed_prepared h hv)
  constructor
  · intro hlisted a v hv hfree hupper
    obtain ⟨w, hw, hiff⟩ := hlisted a v hv
    obtain ⟨w', hw', hset⟩ := hflag a v hv
    obtain rfl : w = w' := Option.some.inj (hw.symm.trans hw')
    by_contra hlower
    have hjailed : w.jailed = true := by
      rw [hset, resetValidator_jailed_iff]
      exact Or.inr ⟨List.ne_nil_of_mem hupper, hlower⟩
    rcases hiff.mp hjailed with hbefore | ⟨-, hnone⟩
    · rw [hfree] at hbefore
      cases hbefore
    · exact hnone (denoted_iff.mpr (Or.inr hupper))
  · intro hlower a v hv
    obtain ⟨w, hw, hset⟩ := hflag a v hv
    refine ⟨w, hw, ?_⟩
    rw [hset, resetValidator_jailed_iff, denoted_iff]
    cases hbefore : v.jailed with
    | true => simp
    | false =>
        have hsame : sdk.valAddressString a ∈ jailAllowedAddrs ∨
            (sdk.valAddressString a).map Char.toUpper ∈ jailAllowedAddrs ↔
              sdk.valAddressString a ∈ jailAllowedAddrs :=
          or_iff_left_of_imp (hlower a v hv hbefore)
        rw [hsame]

end

/-! ### Two validators -/

/-- Addresses as numbers in unary. -/
def unaryString (n : ℕ) : Text := "cosmosvaloper1".toList ++ List.replicate n 'q'

def unaryAddress (t : Text) : Except Text ℕ :=
  if t = (unaryString (t.length - 14)).map Char.toLower ∨ t = (unaryString (t.length - 14)).map Char.toUpper
  then .ok (t.length - 14) else .error "decoding bech32 failed".toList

theorem length_unaryString (n : ℕ) : (unaryString n).length = 14 + n := by
  have hlength : "cosmosvaloper1".toList.length = 14 := by decide
  unfold unaryString
  rw [List.length_append, List.length_replicate, hlength]

theorem unaryAddress_iff (t : Text) (n : ℕ) : unaryAddress t = .ok n ↔
    t = (unaryString n).map Char.toLower ∨ t = (unaryString n).map Char.toUpper := by
  rw [unaryAddress]
  constructor
  · intro h
    split at h
    · next hform =>
        rw [← Except.ok.inj h]
        exact hform
    · cases h
  · intro hform
    have hlength : t.length - 14 = n := by
      rcases hform with rfl | rfl <;> rw [List.length_map, length_unaryString] <;> omega
    rw [hlength, if_pos hform]

theorem unaryString_lower (n : ℕ) : (unaryString n).map Char.toLower = unaryString n := by
  have hlower : "cosmosvaloper1".toList.map Char.toLower = "cosmosvaloper1".toList := by decide
  have hq : Char.toLower 'q' = 'q' := by decide
  unfold unaryString
  rw [List.map_append, List.map_replicate, hlower, hq]

def unarySdk : Sdk ℕ where
  valAddressFromBech32 := unaryAddress
  valAddressString := unaryString
  valAddressFromBech32_iff := unaryAddress_iff
  valAddressString_lower := unaryString_lower
  stringToBytes := unaryAddress
  accAddressFromBech32 _ := .ok 0
  validatorSetUpdates vs := vs
  validatorSetUpdates_jailed _ _ := rfl
  exportGenesisForModules _ _ _ := []
  marshalIndent t := t
  writeValidators _ _ := []
  getConsensusParams _ _ := []

def noFailures : Failures where
  withdrawIterator _ := none
  getAllDelegations := none
  reinitIterator _ := none
  getValidatorOutstandingRewardsCoins _ := none
  feePoolGet _ := none
  feePoolSet _ := none
  afterValidatorCreated _ := none
  beforeDelegationCreated _ := none
  afterDelegationModified _ := none
  redelegationIterator _ := none
  setRedelegation _ := none
  unbondingIterator _ := none
  setUnbondingDelegation _ := none
  getValidator _ := none
  setValidator _ := none
  closeIterator := none
  validatorSetUpdates := none
  consKeyRotations := none
  signingInfoIterator _ := none
  setValidatorSigningInfo _ := none
  exportGenesisForModules := none
  marshalIndent := none
  writeValidators := none

def twoValidators : List (ℕ × Validator) := [(0, ⟨unaryString 0, false, 5⟩), (1, ⟨unaryString 1, false, 5⟩)]

theorem twoValidators_sorted : twoValidators.Pairwise fun a b => a.1 < b.1 := by
  simp [twoValidators]

def twoChain : Chain ℕ :=
  ⟨7, ⟨twoValidators, twoValidators_sorted⟩, [⟨[], unaryString 1⟩], .empty, .empty,
    OrdMap.empty.insert 0 ⟨5⟩⟩

theorem export_prepared_unfailing : ∃ p,
    prepForZeroHeightGenesis unarySdk noFailures twoChain [] = .ok p ∧
      p.steps = plannedSteps unarySdk twoChain [] := by
  obtain ⟨p, hp, hiff⟩ := @export_prepared_iff ℕ _ unarySdk noFailures twoChain [] [] ⟨[], [], 0, []⟩ rfl
  exact ⟨p, hp, hiff.mpr ⟨fun _ _ => rfl, rfl⟩⟩

def stopsBeforeSecond : Failures :=
  { noFailures with reinitIterator := fun i => if i = 1 then some "unmarshal".toList else none }

def doesNotClose : Failures := { noFailures with closeIterator := some "closed".toList }

/-- The second validator is not set up anew; or no signing info is reset, the one there keeps its height. In
both cases the export returns without error. -/
theorem export_quiet :
    (∃ app p, exportAppStateAndValidators unarySdk stopsBeforeSecond twoChain true [] [] = .ok (app, none) ∧
      prepForZeroHeightGenesis unarySdk stopsBeforeSecond twoChain [] = .ok p ∧
      (⟨0, .afterValidatorCreated (unaryString 0)⟩ : Step ℕ) ∈ p.steps ∧
      (⟨0, .afterValidatorCreated (unaryString 1)⟩ : Step ℕ) ∉ p.steps) ∧
    (∃ app p, exportAppStateAndValidators unarySdk doesNotClose twoChain true [] [] = .ok (app, none) ∧
      prepForZeroHeightGenesis unarySdk doesNotClose twoChain [] = .ok p ∧
      (⟨7, .applyAndReturnValidatorSetUpdates⟩ : Step ℕ) ∉ p.steps ∧
      (twoChain.prepared unarySdk p).signingInfos.get? 0 = some ⟨5⟩) :=
  ⟨⟨_, _, rfl, rfl, by decide, by decide⟩, ⟨_, _, rfl, rfl, by decide, by decide⟩⟩

theorem jailing_lower : ∃ p,
    prepForZeroHeightGenesis unarySdk noFailures twoChain [unaryString 0] = .ok p ∧
      JailedAsListed unarySdk twoChain (twoChain.prepared unarySdk p) [unaryString 0] := by
  have hprep : prepForZeroHeightGenesis unarySdk noFailures twoChain [unaryString 0] = .ok _ := rfl
  refine ⟨_, hprep, (jailing_iff hprep).mpr ?_⟩
  intro a v _ _ hupper
  have hupper' : (unaryString a).map Char.toUpper = unaryString 0 := List.mem_singleton.mp hupper
  have hhead : ((unaryString a).map Char.toUpper).head? = some 'C' := rfl
  rw [hupper'] at hhead
  exact absurd hhead (by decide)

/-- An entry in upper case denotes the second validator, which was free and is jailed. -/
theorem jailing_upper : ∃ p,
    prepForZeroHeightGenesis unarySdk noFailures twoChain
        [unaryString 0, (unaryString 1).map Char.toUpper] = .ok p ∧
      unarySdk.valAddressFromBech32 ((unaryString 1).map Char.toUpper) = .ok 1 ∧
      twoChain.jailed 1 = some false ∧ (twoChain.prepared unarySdk p).jailed 1 = some true :=
  ⟨_, rfl, rfl, rfl, rfl⟩

end PqcMigration.App.Export
