/-
# PqcMigration.Devnet.CreateEthClient — `devnet/create-eth-client.js`.

The script pairs an EVM light client with a Cosmos one: it reuses the client `ETH_CLIENT_ID` names or
deploys a contract, registers it with the router and records it in `deploy.env`; then it registers
the counterparty on the Cosmos side. Its world is what these steps read and change: the contracts
and the router of the EVM chain, the counterparties of the Cosmos chain, and the file.

What is not in the repository is in `Net`: which queries are answered, what becomes of each
transaction, and what proof-api deploys where. Every query of the script stands at one place and is
made at most once a run, so `Net.answered` can be any pattern of failures. The router is taken as the
source describes it: `addClient` assigns `client-<nextClientSeq>`, and a Cosmos client's counterparty
is set once.
-/
import PqcMigration.Devnet.Config
import PqcMigration.Lib.Bytes
import PqcMigration.Lib.Hex
import PqcMigration.Lib.Script

namespace PqcMigration.Devnet.CreateEthClient

open Lib Config

/-! ## The world -/

abbrev ClientId := Text

abbrev Address := { b : Bytes // b.length = 20 }

/-- An address as the script prints it, up to the checksum case of its letters: wherever the script
compares addresses it lowers them first. -/
def addressText (a : Address) : Text := '0' :: 'x' :: Hex.toHex a.val

/-- A contract, as far as the script calls it: what `VERIFIER()` returns, or that it reverts. -/
structure Contract where
  verifierData : Option Bytes

/-- A client of the router. -/
structure Registration where
  address : Address
  counterparty : ClientId

structure World where
  contracts : Address → Option Contract
  clients : ClientId → Option Registration
  nextClientSeq : ℕ
  counterparties : ClientId → Option ClientId
  deployEnv : Option Text

/-- The queries of the script, by the place they are made at. -/
inductive Query where
  | network
  | client
  | code
  | counterparty
  | verifier
  | existingCounterparty
  | nextClientSeq
  | createClient
  | deployedVerifier
  | registeredClient
  | registeredCounterparty
  | cosmosCounterparty
  | signerKey
  | cosmosVerification
  deriving DecidableEq

inductive Tx where
  | deploy
  | addClient
  | registerCounterparty
  deriving DecidableEq

/-- What becomes of a transaction: it succeeds, it changes nothing, or it lands while the script is
told that it failed. -/
inductive Fate where
  | done
  | refused
  | lost
  deriving DecidableEq

structure Net where
  answered : Query → Bool
  fate : Tx → Fate
  /-- the address the chain gives the deployed contract -/
  address : World → Address
  /-- the contract proof-api's transaction deploys, for the requested verifier -/
  built : Text → Contract

inductive VerifierMode where
  | mock
  | real
  deriving DecidableEq

inductive PairError where
  | missingConfig (keys : List Text)
  | rejected (q : Query)
  | txFailed (tx : Tx)
  | boundElsewhere (id : ClientId) (address : Address) (bound : Text)
  | canNeverMatch (existing predicted : ClientId)
  | wrongVerifier (bound : Text)
  | noLongerMatches (existing created : ClientId)
  | registeredElsewhere (id : ClientId) (registered expected : Address)
  | wrongCounterparty (id counterparty : ClientId)
  | pairedWith (existing : ClientId)
  | registerFailed
  | cosmosMismatch (id : ClientId)
  deriving DecidableEq

/-! ## Queries -/

/-- `client-<seq>` -/
def clientId (seq : ℕ) : ClientId := "client-".toList ++ Nat.toDigits 10 seq

def getClient (net : Net) (q : Query) (w : World) (id : ClientId) : Option Address :=
  if net.answered q then (w.clients id).map Registration.address else none

/-- A failed `getCode` counts as no code. -/
def hasLiveCode (net : Net) (q : Query) (w : World) (a : Address) : Bool :=
  net.answered q && (w.contracts a).isSome

def getCounterparty (net : Net) (q : Query) (w : World) (id : ClientId) : Except PairError ClientId :=
  match if net.answered q then w.clients id else none with
  | some reg => .ok reg.counterparty
  | none => .error (.rejected q)

/-- `"0x" + result.slice(-40)` -/
def boundText (data : Bytes) : Text :=
  let result := '0' :: 'x' :: Hex.toHex data
  '0' :: 'x' :: result.drop (result.length - 40)

/-- The call returns nothing where there is no contract. -/
def boundVerifier (net : Net) (q : Query) (w : World) (a : Address) : Except PairError Text :=
  if net.answered q then
    match w.contracts a with
    | none => .ok (boundText [])
    | some contract =>
        match contract.verifierData with
        | some data => .ok (boundText data)
        | none => .error (.rejected q)
  else .error (.rejected q)

/-- A failed query and a client without a counterparty are both `null`. -/
def counterpartyOf (net : Net) (q : Query) (w : World) (cosmosClientId : ClientId) : Option ClientId :=
  if net.answered q then (w.counterparties cosmosClientId).filter fun id => !id.isEmpty else none

def lower (t : Text) : Text := t.map Char.toLower

/-- A request whose answer plays no further part here. -/
def await (net : Net) (q : Query) : Script World PairError Unit :=
  Script.query fun _ => if net.answered q then .ok () else .error (.rejected q)

/-! ## `getOrCreateEvmClient` -/

/-- What the script takes from its configuration. `if (env.ETH_CLIENT_ID)` fails for an empty value,
so a client id that is there is not empty. -/
structure Setup where
  mode : VerifierMode
  cosmosClientId : ClientId
  verifierAddr : Text
  ethClientId : Option ClientId
  named : ethClientId ≠ some []
  deriving DecidableEq

/-- The first block: the client to reuse, `none` to go on and create one. -/
def reusable (net : Net) (setup : Setup) (w : World) : Except PairError (Option ClientId) :=
  match setup.ethClientId with
  | none => .ok none
  | some id =>
      match getClient net .client w id with
      | none => .ok none
      | some clientAddr =>
          if hasLiveCode net .code w clientAddr then do
            let counterparty ← getCounterparty net .counterparty w id
            if counterparty = setup.cosmosClientId then
              let bound ← boundVerifier net .verifier w clientAddr
              if lower bound ≠ lower setup.verifierAddr then
                throw (.boundElsewhere id clientAddr bound)
              return some id
            else return none
          else .ok none

/-- `existingCounterparty`, checked against the id a fresh deploy would be assigned. -/
def mayCreate (net : Net) (setup : Setup) (w : World) : Except PairError (Option ClientId) :=
  match counterpartyOf net .existingCounterparty w setup.cosmosClientId with
  | none => .ok none
  | some existing =>
      if net.answered .nextClientSeq then
        let predicted := clientId w.nextClientSeq
        if existing ≠ predicted then .error (.canNeverMatch existing predicted) else .ok (some existing)
      else .error (.rejected .nextClientSeq)

/-- A transaction that turns `w` into `w'` and is answered with `a`. -/
def settle {α : Type} (net : Net) (tx : Tx) (a : α) (w w' : World) : Except PairError α × World :=
  match net.fate tx with
  | .done => (.ok a, w')
  | .refused => (.error (.txFailed tx), w)
  | .lost => (.error (.txFailed tx), w')

/-- The deployment proof-api builds, and the address in its receipt. -/
def deploy (net : Net) (setup : Setup) : Script World PairError Address :=
  Script.effect fun w =>
    let a := net.address w
    settle net .deploy a w
      { w with contracts := Function.update w.contracts a (some (net.built setup.verifierAddr)) }

/-- `addClient`, and the id in its `ICS02ClientAdded` event. -/
def addClient (net : Net) (setup : Setup) (a : Address) : Script World PairError ClientId :=
  Script.effect fun w =>
    let id := clientId w.nextClientSeq
    settle net .addClient id w
      { w with
        clients := Function.update w.clients id (some ⟨a, setup.cosmosClientId⟩)
        nextClientSeq := w.nextClientSeq + 1 }

def checkVerifier (net : Net) (setup : Setup) (a : Address) (w : World) : Except PairError Unit := do
  let bound ← boundVerifier net .deployedVerifier w a
  if lower bound ≠ lower setup.verifierAddr then throw (.wrongVerifier bound)

/-- The checks between `addClient` and the write of the file. -/
def checkRegistered (net : Net) (setup : Setup) (existing : Option ClientId) (id : ClientId)
    (a : Address) (w : World) : Except PairError Unit := do
  if let some paired := existing then
    if paired ≠ id then throw (.noLongerMatches paired id)
  match getClient net .registeredClient w id with
  | none => throw (.rejected .registeredClient)
  | some registered =>
      if registered ≠ a then throw (.registeredElsewhere id registered a)
      let counterparty ← getCounterparty net .registeredCounterparty w id
      if counterparty ≠ setup.cosmosClientId then throw (.wrongCounterparty id counterparty)

def ethClientIdKey : Text := "ETH_CLIENT_ID".toList

def sp1Ics07Key : Text := "SP1_ICS07".toList

def recordClient (id : ClientId) (a : Address) : Script World PairError Unit :=
  Script.effect fun w =>
    let updates := [(ethClientIdKey, id), (sp1Ics07Key, addressText a)]
    (.ok (), { w with deployEnv := some (upsertDeployEnv w.deployEnv updates) })

def createEvmClient (net : Net) (setup : Setup) : Script World PairError ClientId := do
  let existing ← Script.query (mayCreate net setup)
  await net .createClient
  let a ← deploy net setup
  Script.query (checkVerifier net setup a)
  let id ← addClient net setup a
  Script.query (checkRegistered net setup existing id a)
  recordClient id a
  return id

def getOrCreateEvmClient (net : Net) (setup : Setup) : Script World PairError ClientId := do
  match ← Script.query (reusable net setup) with
  | some id => return id
  | none => createEvmClient net setup

/-! ## `registerCosmosCounterparty` -/

/-- Whether the Cosmos side is already registered. -/
def alreadyRegistered (net : Net) (setup : Setup) (id : ClientId) (w : World) :
    Except PairError Bool :=
  match counterpartyOf net .cosmosCounterparty w setup.cosmosClientId with
  | none => .ok false
  | some existing => if existing = id then .ok true else .error (.pairedWith existing)

/-- `MsgRegisterCounterparty`: the chain refuses it for a client that has a counterparty. -/
def registerCounterparty (net : Net) (setup : Setup) (id : ClientId) : Script World PairError Unit :=
  Script.effect fun w =>
    if (w.counterparties setup.cosmosClientId).isSome then (.error .registerFailed, w)
    else
      settle net .registerCounterparty () w
        { w with counterparties := Function.update w.counterparties setup.cosmosClientId (some id) }

def verifyCounterparty (net : Net) (setup : Setup) (id : ClientId) (w : World) :
    Except PairError Unit :=
  if counterpartyOf net .cosmosVerification w setup.cosmosClientId = some id then .ok ()
  else .error (.cosmosMismatch id)

/-- The rest of the function, for a client that is not registered yet. -/
def submitCounterparty (net : Net) (setup : Setup) (id : ClientId) : Script World PairError Unit := do
  await net .signerKey
  registerCounterparty net setup id
  Script.query (verifyCounterparty net setup id)

def registerCosmosCounterparty (net : Net) (setup : Setup) (id : ClientId) :
    Script World PairError Unit := do
  match ← Script.query (alreadyRegistered net setup id) with
  | true => return ()
  | false => submitCounterparty net setup id

/-! ## `main` -/

def requiredKeys : List Text :=
  ["CHAIN_ID", "PROOF_API_ADDR", "ICS26_ROUTER", "DEPLOYER_PK", "COSMOS_CLIENT_ID",
    "SP1_VERIFIER_MOCK", "SP1_VERIFIER_GROTH16"].map String.toList

def verifierKey : VerifierMode → Text
  | .mock => "SP1_VERIFIER_MOCK".toList
  | .real => "SP1_VERIFIER_GROTH16".toList

def cosmosClientIdKey : Text := "COSMOS_CLIENT_ID".toList

/-- A property the script tests before it uses it. -/
def configured (cfg : Env) (key : Text) : Option Text := (cfg key).filter fun v => !v.isEmpty

theorem configured_ne_some_nil (cfg : Env) (key : Text) : configured cfg key ≠ some [] := by
  intro h
  exact absurd (Option.filter_eq_some_iff.mp h).2 (by decide)

/-- `loadEnv`, `require_` and the choice of the verifier. -/
def readSetup (src : Sources) (mode : VerifierMode) (w : World) : Except PairError Setup :=
  let cfg := src.load w.deployEnv
  if missing cfg requiredKeys = [] then
    .ok { mode := mode
          cosmosClientId := (cfg cosmosClientIdKey).getD []
          verifierAddr := (cfg (verifierKey mode)).getD []
          ethClientId := configured cfg ethClientIdKey
          named := configured_ne_some_nil cfg ethClientIdKey }
  else .error (.missingConfig (missing cfg requiredKeys))

def pair (net : Net) (setup : Setup) : Script World PairError ClientId := do
  await net .network
  let id ← getOrCreateEvmClient net setup
  registerCosmosCounterparty net setup id
  return id

def createEthClient (src : Sources) (net : Net) (mode : VerifierMode) :
    Script World PairError ClientId := do
  let setup ← Script.query (readSetup src mode)
  pair net setup

/-! ## What the queries say -/

/-- The client is live, bound to the requested verifier, and its EVM counterparty is the Cosmos
client. -/
def EvmPaired (setup : Setup) (w : World) (id : ClientId) : Prop :=
  ∃ reg contract data, w.clients id = some reg ∧ w.contracts reg.address = some contract ∧
    contract.verifierData = some data ∧ lower (boundText data) = lower setup.verifierAddr ∧
    reg.counterparty = setup.cosmosClientId

theorem boundVerifier_eq_ok {net : Net} {q : Query} {w : World} {a : Address} {contract : Contract}
    {bound : Text} (ha : w.contracts a = some contract) (h : boundVerifier net q w a = .ok bound) :
    net.answered q = true ∧ ∃ data, contract.verifierData = some data ∧ bound = boundText data := by
  cases hq : net.answered q with
  | false => simp [boundVerifier, hq] at h
  | true =>
      cases hdata : contract.verifierData with
      | none => simp [boundVerifier, hq, ha, hdata] at h
      | some data => exact ⟨rfl, data, rfl, by simpa [boundVerifier, hq, ha, hdata] using h.symm⟩

theorem boundVerifier_of_data {net : Net} {q : Query} {w : World} {a : Address} {contract : Contract}
    {data : Bytes} (hq : net.answered q = true) (ha : w.contracts a = some contract)
    (hdata : contract.verifierData = some data) :
    boundVerifier net q w a = .ok (boundText data) := by
  simp [boundVerifier, hq, ha, hdata]

section

variable {net : Net} {setup : Setup} {w : World} {id : ClientId}

/-- A client is reused only if `ETH_CLIENT_ID` names it and it is paired on the EVM side. -/
theorem evmPaired_of_reusable (h : reusable net setup w = .ok (some id)) :
    setup.ethClientId = some id ∧ EvmPaired setup w id := by
  cases hid : setup.ethClientId with
  | none => simp [reusable, hid] at h
  | some named =>
      cases hclient : getClient net .client w named with
      | none => simp [reusable, hid, hclient] at h
      | some a =>
          obtain ⟨-, reg, hreg, rfl⟩ : net.answered .client = true ∧
              ∃ reg, w.clients named = some reg ∧ reg.address = a := by
            simpa [getClient] using hclient
          cases hlive : hasLiveCode net .code w reg.address with
          | false => simp [reusable, hid, hclient, hlive] at h
          | true =>
              obtain ⟨-, hsome⟩ : net.answered .code = true ∧ (w.contracts reg.address).isSome := by
                simpa [hasLiveCode] using hlive
              obtain ⟨contract, hcontract⟩ := Option.isSome_iff_exists.mp hsome
              simp only [reusable, hid, hclient, hlive, if_true] at h
              obtain ⟨counterparty, hcp, h⟩ := except_bind_eq_ok h
              have hcp' : counterparty = reg.counterparty := by
                cases hq : net.answered .counterparty <;> simp [getCounterparty, hq, hreg] at hcp
                exact hcp.symm
              split at h
              · next heq =>
                  obtain ⟨bound, hbound, h⟩ := except_bind_eq_ok h
                  obtain ⟨-, data, hdata, rfl⟩ := boundVerifier_eq_ok hcontract hbound
                  split at h
                  · cases h
                  · next hsame =>
                      obtain rfl : named = id := by simpa [pure, Except.pure] using h
                      exact ⟨rfl, reg, contract, data, hreg, hcontract, hdata,
                        not_not.mp hsame, hcp'.symm.trans heq⟩
              · cases h

/-- Conversely, such a client is reused when the four queries are answered. -/
theorem reusable_of_evmPaired (hans : ∀ q, net.answered q = true) (hid : setup.ethClientId = some id)
    (h : EvmPaired setup w id) : reusable net setup w = .ok (some id) := by
  obtain ⟨reg, contract, data, hreg, hcontract, hdata, hbound, hcp⟩ := h
  simp [reusable, hid, getClient, hasLiveCode, getCounterparty, hans, hreg, hcontract, hcp,
    boundVerifier_of_data (hans .verifier) hcontract hdata, hbound, bind, Except.bind, pure,
    Except.pure]

end

/-! ## The worlds a creation passes -/

section

variable (net : Net) (setup : Setup) (w : World)

/-- After the deployment. -/
def deployed : World :=
  { w with contracts :=
      Function.update w.contracts (net.address w) (some (net.built setup.verifierAddr)) }

/-- After `addClient`. -/
def registered : World :=
  { deployed net setup w with
    clients := Function.update w.clients (clientId w.nextClientSeq)
      (some ⟨net.address w, setup.cosmosClientId⟩)
    nextClientSeq := w.nextClientSeq + 1 }

/-- After the write of `deploy.env`. -/
def recorded : World :=
  { registered net setup w with
    deployEnv := some (upsertDeployEnv w.deployEnv
      [(ethClientIdKey, clientId w.nextClientSeq), (sp1Ics07Key, addressText (net.address w))]) }

/-- The contract proof-api deploys is bound to the requested verifier. -/
def Net.BuildsFor (v : Text) : Prop :=
  ∃ data, (net.built v).verifierData = some data ∧ lower (boundText data) = lower v

/-- What a creation takes to get to its end. -/
structure Creates : Prop where
  may : ∃ existing, mayCreate net setup w = .ok existing
  createClient : net.answered .createClient = true
  deploy : net.fate .deploy = .done
  deployedVerifier : net.answered .deployedVerifier = true
  builds : net.BuildsFor setup.verifierAddr
  addClient : net.fate .addClient = .done
  registeredClient : net.answered .registeredClient = true
  registeredCounterparty : net.answered .registeredCounterparty = true

end

section

variable {net : Net} {setup : Setup} {w : World} {id : ClientId}

/-- A creation may go on with no counterparty seen, or with the id it is about to be assigned. -/
theorem mayCreate_eq_ok {existing : Option ClientId} :
    mayCreate net setup w = .ok existing ↔
      counterpartyOf net .existingCounterparty w setup.cosmosClientId = existing ∧
        ∀ paired, existing = some paired →
          net.answered .nextClientSeq = true ∧ paired = clientId w.nextClientSeq := by
  constructor
  · intro h
    cases hseen : counterpartyOf net .existingCounterparty w setup.cosmosClientId with
    | none =>
        obtain rfl : none = existing := by simpa [mayCreate, hseen] using h
        exact ⟨rfl, by simp⟩
    | some seen =>
        simp only [mayCreate, hseen] at h
        split at h
        · next hseq =>
            split at h
            · cases h
            · next heq =>
                obtain rfl := Except.ok.inj h
                refine ⟨rfl, ?_⟩
                rintro paired hp
                obtain rfl := Option.some.inj hp
                exact ⟨hseq, not_not.mp heq⟩
        · cases h
  · rintro ⟨rfl, hpaired⟩
    cases hseen : counterpartyOf net .existingCounterparty w setup.cosmosClientId with
    | none => simp [mayCreate, hseen]
    | some seen =>
        obtain ⟨hseq, heq⟩ := hpaired seen hseen
        simp [mayCreate, hseen, hseq, heq]

theorem checkVerifier_deployed :
    checkVerifier net setup (net.address w) (deployed net setup w) = .ok () ↔
      net.answered .deployedVerifier = true ∧ net.BuildsFor setup.verifierAddr := by
  have hcontract : (deployed net setup w).contracts (net.address w) =
      some (net.built setup.verifierAddr) := Function.update_self _ _ _
  constructor
  · intro h
    obtain ⟨bound, hbound, hsame⟩ := except_bind_eq_ok h
    obtain ⟨hq, data, hdata, rfl⟩ := boundVerifier_eq_ok hcontract hbound
    refine ⟨hq, data, hdata, ?_⟩
    by_contra hne
    rw [if_pos hne] at hsame
    cases hsame
  · rintro ⟨hq, data, hdata, hsame⟩
    simp [checkVerifier, boundVerifier_of_data hq hcontract hdata, hsame, bind, Except.bind, pure,
      Except.pure]

/-- The router hands back what `addClient` has just put in, so only a failed query stops here. -/
theorem checkRegistered_registered {existing : Option ClientId}
    (h : mayCreate net setup w = .ok existing) :
    checkRegistered net setup existing (clientId w.nextClientSeq) (net.address w)
        (registered net setup w) = .ok () ↔
      net.answered .registeredClient = true ∧ net.answered .registeredCounterparty = true := by
  have hreg : (registered net setup w).clients (clientId w.nextClientSeq) =
      some ⟨net.address w, setup.cosmosClientId⟩ := Function.update_self _ _ _
  have hpaired : ∀ paired, existing = some paired → paired = clientId w.nextClientSeq :=
    fun paired hp => ((mayCreate_eq_ok.mp h).2 paired hp).2
  have hskip : checkRegistered net setup existing (clientId w.nextClientSeq) (net.address w)
      (registered net setup w) = checkRegistered net setup none (clientId w.nextClientSeq)
        (net.address w) (registered net setup w) := by
    cases existing with
    | none => rfl
    | some paired => simp [checkRegistered, hpaired paired rfl]
  rw [hskip]
  by_cases hclient : net.answered .registeredClient = true
  · by_cases hcp : net.answered .registeredCounterparty = true
    · simp [checkRegistered, getClient, getCounterparty, hclient, hcp, hreg, bind, Except.bind, pure,
        Except.pure]
    · simp [checkRegistered, getClient, getCounterparty, hclient, hcp, hreg, bind, Except.bind]
  · simp [checkRegistered, getClient, hclient, throw, throwThe, MonadExceptOf.throw]

/-! ## One outcome per function -/

/-- A transaction that succeeds. -/
theorem settle_done {α : Type} {tx : Tx} (a : α) (w w' : World) (h : net.fate tx = .done) :
    settle net tx a w w' = (.ok a, w') := by
  rw [settle, h]

theorem settle_of_ne_done {α : Type} {tx : Tx} (a : α) (w w' : World) (h : net.fate tx ≠ .done) :
    (settle net tx a w w').1 = .error (.txFailed tx) := by
  rw [settle]
  cases hfate : net.fate tx with
  | done => exact absurd hfate h
  | refused => rfl
  | lost => rfl

/-- A transaction leaves the old world or the new one, so it keeps what the new one keeps. -/
theorem settle_keeps {α β : Type} {tx : Tx} (f : World → β) (a : α) {w w' : World}
    (h : f w' = f w) : f (settle net tx a w w').2 = f w := by
  rw [settle]
  cases net.fate tx with
  | done => exact h
  | refused => rfl
  | lost => exact h

theorem await_of_answered {q : Query} (h : net.answered q = true) :
    await net q w = ⟨.ok (), w, []⟩ := by
  simp [await, h]

theorem await_of_not_answered {q : Query} (h : ¬ net.answered q = true) :
    await net q w = ⟨.error (.rejected q), w, []⟩ := by
  simp [await, h]

theorem deploy_of_done (h : net.fate .deploy = .done) :
    deploy net setup w =
      ⟨.ok (net.address w), deployed net setup w, [deployed net setup w]⟩ := by
  simp only [deploy, Script.effect_apply, settle_done _ _ _ h]
  rfl

theorem addClient_of_done (h : net.fate .addClient = .done) :
    addClient net setup (net.address w) (deployed net setup w) =
      ⟨.ok (clientId w.nextClientSeq), registered net setup w, [registered net setup w]⟩ := by
  simp only [addClient, Script.effect_apply, settle_done _ _ _ h]
  rfl

/-- A creation that gets to its end. -/
theorem createEvmClient_of_creates (h : Creates net setup w) :
    createEvmClient net setup w = ⟨.ok (clientId w.nextClientSeq), recorded net setup w,
      [deployed net setup w, registered net setup w, recorded net setup w]⟩ := by
  obtain ⟨existing, hmay⟩ := h.may
  have hapi : await net .createClient w = ⟨.ok (), w, []⟩ := await_of_answered h.createClient
  have hdeploy : deploy net setup w = _ := deploy_of_done h.deploy
  have hadd : addClient net setup (net.address w) (deployed net setup w) = _ :=
    addClient_of_done h.addClient
  rw [createEvmClient, Script.query_bind_of_ok hmay, Script.bind_of_ok (by rw [hapi]), hapi,
    Script.bind_of_ok (by rw [hdeploy]), hdeploy,
    Script.query_bind_of_ok (checkVerifier_deployed.mpr ⟨h.deployedVerifier, h.builds⟩),
    Script.bind_of_ok (by rw [hadd]), hadd,
    Script.query_bind_of_ok ((checkRegistered_registered hmay).mpr
      ⟨h.registeredClient, h.registeredCounterparty⟩)]
  rfl

/-- The script raised, and the world it left and every world it passed have the file as it was. -/
def RaisedUnrecorded {α : Type} (w : World) (o : Outcome World PairError α) : Prop :=
  (∃ e, o.result = .error e) ∧ o.world.deployEnv = w.deployEnv ∧
    ∀ u ∈ o.passed, u.deployEnv = w.deployEnv

/-- A creation that does not get there stops at its first failure, before the file is written. -/
theorem createEvmClient_of_not_creates (h : ¬ Creates net setup w) :
    RaisedUnrecorded w (createEvmClient net setup w) := by
  rw [createEvmClient]
  -- statement after statement: it raises and the file is as it was, or the next one runs
  cases hmay : mayCreate net setup w with
  | error e =>
      rw [Script.query_bind_of_error hmay]
      exact ⟨⟨e, rfl⟩, rfl, by simp⟩
  | ok existing =>
  rw [Script.query_bind_of_ok hmay]
  by_cases hcreate : net.answered .createClient = true
  swap
  · have hapi : await net .createClient w = _ := await_of_not_answered hcreate
    rw [Script.bind_of_error (by rw [hapi]), hapi]
    exact ⟨⟨_, rfl⟩, rfl, by simp⟩
  have hapi : await net .createClient w = _ := await_of_answered hcreate
  rw [Script.bind_of_ok (by rw [hapi]), hapi]
  by_cases hdone : net.fate .deploy = .done
  swap
  · have herror : (deploy net setup w).result = _ :=
      settle_of_ne_done (net.address w) w (deployed net setup w) hdone
    have hkept : (deploy net setup w).world.deployEnv = w.deployEnv :=
      settle_keeps World.deployEnv (net.address w) rfl
    rw [Script.bind_of_error herror]
    refine ⟨⟨_, rfl⟩, hkept, ?_⟩
    intro u hu
    obtain rfl := List.mem_singleton.mp hu
    exact hkept
  have hdeploy : deploy net setup w = _ := deploy_of_done hdone
  rw [Script.bind_of_ok (by rw [hdeploy]), hdeploy]
  cases hverifier : checkVerifier net setup (net.address w) (deployed net setup w) with
  | error e =>
      rw [Script.query_bind_of_error hverifier]
      exact ⟨⟨e, rfl⟩, rfl, by simp [deployed]⟩
  | ok _ =>
  rw [Script.query_bind_of_ok hverifier]
  by_cases hadded : net.fate .addClient = .done
  swap
  · have herror : (addClient net setup (net.address w) (deployed net setup w)).result = _ :=
      settle_of_ne_done (clientId w.nextClientSeq) (deployed net setup w) (registered net setup w) hadded
    have hkept : (addClient net setup (net.address w) (deployed net setup w)).world.deployEnv =
        w.deployEnv :=
      settle_keeps World.deployEnv (clientId w.nextClientSeq) (w := deployed net setup w) rfl
    rw [Script.bind_of_error herror]
    refine ⟨⟨_, rfl⟩, hkept, ?_⟩
    intro u hu
    rcases List.mem_cons.mp hu with rfl | hu
    · rfl
    · obtain rfl := List.mem_singleton.mp hu
      exact hkept
  have hadd : addClient net setup (net.address w) (deployed net setup w) = _ :=
    addClient_of_done hadded
  rw [Script.bind_of_ok (by rw [hadd]), hadd]
  cases hregistered : checkRegistered net setup existing (clientId w.nextClientSeq) (net.address w)
      (registered net setup w) with
  | error e =>
      rw [Script.query_bind_of_error hregistered]
      exact ⟨⟨e, rfl⟩, rfl, by simp [deployed, registered]⟩
  | ok _ =>
      obtain ⟨hq, hbuilds⟩ := checkVerifier_deployed.mp hverifier
      obtain ⟨hclient, hcp⟩ := (checkRegistered_registered hmay).mp hregistered
      exact absurd ⟨⟨existing, hmay⟩, hcreate, hdone, hq, hbuilds, hadded, hclient, hcp⟩ h

/-- Registering on the Cosmos side touches nothing else. -/
theorem registerCounterparty_keeps {β : Type} (f : World → β)
    (hf : ∀ u c, f { u with counterparties := c } = f u) :
    f (registerCounterparty net setup id w).world = f w ∧
      ∀ u ∈ (registerCounterparty net setup id w).passed, f u = f w := by
  have hworld : f (registerCounterparty net setup id w).world = f w := by
    simp only [registerCounterparty, Script.effect_apply]
    split
    · rfl
    · exact settle_keeps f () (hf w _)
  refine ⟨hworld, ?_⟩
  intro u hu
  obtain rfl := List.mem_singleton.mp hu
  exact hworld

/-- After the Cosmos registration. -/
def cosmosRegistered (setup : Setup) (id : ClientId) (w : World) : World :=
  { w with counterparties := Function.update w.counterparties setup.cosmosClientId (some id) }

theorem counterpartyOf_eq_some {q : Query} {c : ClientId}
    (h : counterpartyOf net q w c = some id) :
    net.answered q = true ∧ w.counterparties c = some id ∧ id ≠ [] := by
  by_cases hq : net.answered q = true
  · have hfilter : (w.counterparties c).filter (fun id => !id.isEmpty) = some id := by
      simpa [counterpartyOf, hq] using h
    obtain ⟨hsome, hne⟩ := Option.filter_eq_some_iff.mp hfilter
    exact ⟨hq, hsome, by simpa using hne⟩
  · simp [counterpartyOf, hq] at h

theorem counterpartyOf_of_answered {q : Query} {c : ClientId} (hq : net.answered q = true)
    (h : w.counterparties c = some id) (hne : id ≠ []) : counterpartyOf net q w c = some id := by
  simp [counterpartyOf, hq, h, hne]

/-- Where the Cosmos side names this client already, nothing happens. -/
theorem registerCosmosCounterparty_of_paired (hq : net.answered .cosmosCounterparty = true)
    (h : w.counterparties setup.cosmosClientId = some id) (hne : id ≠ []) :
    registerCosmosCounterparty net setup id w = ⟨.ok (), w, []⟩ := by
  have halready : alreadyRegistered net setup id w = .ok true := by
    simp [alreadyRegistered, counterpartyOf_of_answered hq h hne]
  rw [registerCosmosCounterparty, Script.query_bind_of_ok halready]
  rfl

theorem registerCounterparty_of_none (hdone : net.fate .registerCounterparty = .done)
    (h : w.counterparties setup.cosmosClientId = none) :
    registerCounterparty net setup id w =
      ⟨.ok (), cosmosRegistered setup id w, [cosmosRegistered setup id w]⟩ := by
  simp only [registerCounterparty, Script.effect_apply, h, Option.isSome_none, Bool.false_eq_true,
    if_false, settle_done _ _ _ hdone]
  rfl

/-- Where it names none, the registration is made. -/
theorem registerCosmosCounterparty_of_none (hans : ∀ q, net.answered q = true)
    (hdone : net.fate .registerCounterparty = .done)
    (h : w.counterparties setup.cosmosClientId = none) (hne : id ≠ []) :
    registerCosmosCounterparty net setup id w =
      ⟨.ok (), cosmosRegistered setup id w, [cosmosRegistered setup id w]⟩ := by
  have halready : alreadyRegistered net setup id w = .ok false := by
    simp [alreadyRegistered, counterpartyOf, h]
  have hkey : await net .signerKey w = _ := await_of_answered (hans .signerKey)
  have hregister : registerCounterparty net setup id w = _ := registerCounterparty_of_none hdone h
  have hverified : verifyCounterparty net setup id (cosmosRegistered setup id w) = .ok () :=
    if_pos (counterpartyOf_of_answered (hans _) (Function.update_self _ _ _) hne)
  rw [registerCosmosCounterparty, Script.query_bind_of_ok halready]
  show submitCounterparty net setup id w = _
  rw [submitCounterparty, Script.bind_of_ok (by rw [hkey]), hkey,
    Script.bind_of_ok (by rw [hregister]), hregister, Script.query_apply, hverified]
  rfl

theorem submitCounterparty_eq_ok (h : (submitCounterparty net setup id w).result = .ok ()) :
    id ≠ [] ∧ w.counterparties setup.cosmosClientId = none ∧
      submitCounterparty net setup id w =
        ⟨.ok (), cosmosRegistered setup id w, [cosmosRegistered setup id w]⟩ := by
  rw [submitCounterparty] at h ⊢
  have hkey : await net .signerKey w = ⟨.ok (), w, []⟩ := by
    refine await_of_answered ?_
    by_contra hq
    rw [Script.bind_of_error (by rw [await_of_not_answered hq])] at h
    cases h
  rw [Script.bind_of_ok (by rw [hkey]), hkey] at h ⊢
  obtain ⟨_, hres, -⟩ := Script.bind_eq_ok h
  have hnone : w.counterparties setup.cosmosClientId = none := by
    by_contra hsome
    simp [registerCounterparty, Option.isSome_iff_ne_none.mpr hsome] at hres
  have hdone : net.fate .registerCounterparty = .done := by
    by_contra hne
    simp [registerCounterparty, hnone, settle_of_ne_done _ _ _ hne] at hres
  have hregister : registerCounterparty net setup id w = _ := registerCounterparty_of_none hdone hnone
  rw [Script.bind_of_ok (by rw [hregister]), hregister] at h ⊢
  have hverified : verifyCounterparty net setup id (cosmosRegistered setup id w) = .ok () := h
  have hseen : counterpartyOf net .cosmosVerification (cosmosRegistered setup id w)
      setup.cosmosClientId = some id := by
    by_contra hne
    simp [verifyCounterparty, hne] at hverified
  refine ⟨(counterpartyOf_eq_some hseen).2.2, hnone, ?_⟩
  rw [Script.query_apply, hverified]
  rfl

/-- A registration that returns found the Cosmos side naming this client, or made it do so. -/
theorem registerCosmosCounterparty_eq_ok
    (h : (registerCosmosCounterparty net setup id w).result = .ok ()) :
    id ≠ [] ∧
      ((w.counterparties setup.cosmosClientId = some id ∧
        registerCosmosCounterparty net setup id w = ⟨.ok (), w, []⟩) ∨
      (w.counterparties setup.cosmosClientId = none ∧
        registerCosmosCounterparty net setup id w =
          ⟨.ok (), cosmosRegistered setup id w, [cosmosRegistered setup id w]⟩)) := by
  rw [registerCosmosCounterparty] at h ⊢
  obtain ⟨already, halready, hrest⟩ := Script.query_bind_eq_ok h
  rw [Script.query_bind_of_ok halready]
  cases already with
  | true =>
      cases hseen : counterpartyOf net .cosmosCounterparty w setup.cosmosClientId with
      | none => simp [alreadyRegistered, hseen] at halready
      | some existing =>
          obtain rfl : existing = id := by
            by_contra hne
            simp [alreadyRegistered, hseen, hne] at halready
          obtain ⟨-, hpaired, hne⟩ := counterpartyOf_eq_some hseen
          exact ⟨hne, Or.inl ⟨hpaired, rfl⟩⟩
  | false =>
      obtain ⟨hne, hnone, hsubmit⟩ := submitCounterparty_eq_ok hrest
      exact ⟨hne, Or.inr ⟨hnone, hsubmit⟩⟩

end

end PqcMigration.Devnet.CreateEthClient
