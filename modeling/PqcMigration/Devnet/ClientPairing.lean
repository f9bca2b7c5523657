/-
# PqcMigration.Devnet.ClientPairing — what a successful run of `create-eth-client.js` leaves behind.

A run that succeeds leaves the two chains paired, whatever they and `deploy.env` held before, and a
second run changes nothing. The second half rests on the file: the id written there is the one the
next `load` resolves `ETH_CLIENT_ID` to, and every other key still resolves as it did.
-/
import PqcMigration.Devnet.CreateEthClient

namespace PqcMigration.Devnet.CreateEthClient

open Lib Config

/-! ## The configuration before and after the file is written -/

theorem isKey_ethClientIdKey : IsKey ethClientIdKey := by
  have hall : ethClientIdKey.all isKeyChar = true := by decide
  exact ⟨by decide, List.all_eq_true.mp hall⟩

theorem isKey_sp1Ics07Key : IsKey sp1Ics07Key := by
  have hall : sp1Ics07Key.all isKeyChar = true := by decide
  exact ⟨by decide, List.all_eq_true.mp hall⟩

theorem ethClientIdKey_ne_sp1Ics07Key : ethClientIdKey ≠ sp1Ics07Key := by decide

theorem ethClientIdKey_ne_beaconUrl : ethClientIdKey ≠ "BEACON_URL".toList := by decide

theorem isPlain_clientId (seq : ℕ) : IsPlain (clientId seq) := by
  intro c hc
  rcases List.mem_append.mp hc with hc | hc
  · have hall : "client-".toList.all (fun c => !isSpace c && c != '$' && c != '~') = true := by
      decide
    simpa [and_assoc] using List.all_eq_true.mp hall c hc
  · have hdigit : c.isDigit = true := Nat.isDigit_of_mem_toDigits (by decide) (by decide) hc
    have hrange : 48 ≤ c.toNat ∧ c.toNat ≤ 57 := by
      rw [Char.isDigit, Bool.and_eq_true, decide_eq_true_eq, decide_eq_true_eq] at hdigit
      exact hdigit
    refine ⟨?_, ?_, ?_⟩
    · exact isSpace_of_isKeyChar (by simp [isKeyChar, hrange])
    · rintro rfl
      exact absurd hrange (by decide)
    · rintro rfl
      exact absurd hrange (by decide)

theorem isPlain_addressText (a : Address) : IsPlain (addressText a) := by
  have hdigits : ∀ n : Fin 16, isSpace (Hex.digit n) = false ∧ Hex.digit n ≠ '$' ∧
      Hex.digit n ≠ '~' := by decide
  intro c hc
  rcases List.mem_cons.mp hc with rfl | hc
  · decide
  rcases List.mem_cons.mp hc with rfl | hc
  · decide
  obtain ⟨b, -, hb⟩ := List.mem_flatMap.mp hc
  have hlt : b.toNat < 256 := b.toNat_lt
  rcases List.mem_cons.mp hb with rfl | hb
  · exact hdigits ⟨b.toNat / 16, by omega⟩
  · obtain rfl := List.mem_singleton.mp hb
    exact hdigits ⟨b.toNat % 16, by omega⟩

theorem clientId_ne_nil (seq : ℕ) : clientId seq ≠ [] := by
  intro h
  exact absurd (List.append_eq_nil_iff.mp h).1 (by decide)

theorem clientId_injective {m n : ℕ} (h : clientId m = clientId n) : m = n := by
  have hdigits := List.append_cancel_left h
  have hm : Nat.ofDigitChars 10 (Nat.toDigits 10 m) 0 = m := Nat.ofDigitChars_ten_toDigits
  rw [hdigits, Nat.ofDigitChars_ten_toDigits] at hm
  exact hm.symm

section

variable {src : Sources} {mode : VerifierMode} {net : Net} {setup : Setup} {w : World} {id : ClientId}

/-- What `deploy.env` holds after the write. -/
theorem parse_recorded (host : Host) :
    parseEnvFile host (recorded net setup w).deployEnv =
      setKey (setKey (parseEnvFile host w.deployEnv) (ethClientIdKey, clientId w.nextClientSeq))
        (sp1Ics07Key, addressText (net.address w)) := by
  refine parseEnvFile_upsertDeployEnv w.deployEnv _ ?_
  intro kv hkv
  rcases List.mem_cons.mp hkv with rfl | hkv
  · exact ⟨isKey_ethClientIdKey, isPlain_clientId _⟩
  · obtain rfl := List.mem_singleton.mp hkv
    exact ⟨isKey_sp1Ics07Key, isPlain_addressText _⟩

theorem parse_recorded_ethClientId (host : Host) :
    parseEnvFile host (recorded net setup w).deployEnv ethClientIdKey =
      some (clientId w.nextClientSeq) := by
  rw [parse_recorded, setKey, Function.update_of_ne ethClientIdKey_ne_sp1Ics07Key, setKey,
    Function.update_self]

theorem parse_recorded_of_ne (host : Host) {k : Text} (heth : k ≠ ethClientIdKey)
    (hsp1 : k ≠ sp1Ics07Key) :
    parseEnvFile host (recorded net setup w).deployEnv k = parseEnvFile host w.deployEnv k := by
  rw [parse_recorded, setKey, Function.update_of_ne hsp1, setKey, Function.update_of_ne heth]

/-- Every other key resolves as before. -/
theorem load_recorded_of_ne {k : Text} (heth : k ≠ ethClientIdKey) (hsp1 : k ≠ sp1Ics07Key) :
    src.load (recorded net setup w).deployEnv k = src.load w.deployEnv k := by
  have hgen : ∀ k, k ≠ ethClientIdKey → k ≠ sp1Ics07Key →
      src.generated (recorded net setup w).deployEnv k = src.generated w.deployEnv k := by
    intro k heth hsp1
    rw [Sources.generated, Sources.generated, parse_recorded_of_ne _ heth hsp1]
  have hbeacon := hgen "BEACON".toList (by decide) (by decide)
  simp only [Sources.load, hgen k heth hsp1, hbeacon]

/-- `ETH_CLIENT_ID` comes from somewhere other than the generated files. -/
def Overridden (src : Sources) : Prop := truthy (src.explicit ethClientIdKey) = true

theorem load_ethClientId_of_overridden (h : Overridden src) (file : Option Text) :
    src.load file ethClientIdKey = src.explicit ethClientIdKey := by
  rw [Overridden] at h
  simp only [Sources.load, decide_eq_false ethClientIdKey_ne_beaconUrl, h, Bool.false_and, if_true,
    Bool.false_eq_true, if_false]

theorem load_recorded_ethClientId (h : ¬ Overridden src) :
    src.load (recorded net setup w).deployEnv ethClientIdKey = some (clientId w.nextClientSeq) := by
  rw [Overridden] at h
  simp only [Sources.load, decide_eq_false ethClientIdKey_ne_beaconUrl, h, Bool.false_and,
    Bool.false_eq_true, if_false, Sources.generated, parse_recorded_ethClientId, Option.some_or]

end

/-! ## A run as a whole -/

section

variable {src : Sources} {mode : VerifierMode} {net : Net} {setup : Setup} {w : World} {id : ClientId}

theorem createEthClient_of_readSetup (h : readSetup src mode w = .ok setup) :
    createEthClient src net mode w = pair net setup w :=
  Script.query_bind_of_ok h

theorem getOrCreateEvmClient_of_reusable (h : reusable net setup w = .ok (some id)) :
    getOrCreateEvmClient net setup w = ⟨.ok id, w, []⟩ :=
  Script.query_bind_of_ok h

theorem getOrCreateEvmClient_of_none (h : reusable net setup w = .ok none) :
    getOrCreateEvmClient net setup w = createEvmClient net setup w :=
  Script.query_bind_of_ok h

/-- A client is reused where the script stands, or created on the way through three worlds. -/
theorem getOrCreateEvmClient_eq_ok (h : (getOrCreateEvmClient net setup w).result = .ok id) :
    (reusable net setup w = .ok (some id) ∧ getOrCreateEvmClient net setup w = ⟨.ok id, w, []⟩) ∨
      (reusable net setup w = .ok none ∧ Creates net setup w ∧ id = clientId w.nextClientSeq ∧
        getOrCreateEvmClient net setup w = ⟨.ok id, recorded net setup w,
          [deployed net setup w, registered net setup w, recorded net setup w]⟩) := by
  obtain ⟨found, hfound, hrest⟩ := Script.query_bind_eq_ok h
  cases found with
  | some x =>
      have hget := getOrCreateEvmClient_of_reusable hfound
      obtain rfl : x = id := by simpa [hget] using h
      exact Or.inl ⟨hfound, hget⟩
  | none =>
      have hget := getOrCreateEvmClient_of_none hfound
      have hcreates : Creates net setup w := by
        by_contra hnot
        obtain ⟨⟨e, he⟩, -⟩ := createEvmClient_of_not_creates hnot
        rw [hget, he] at h
        cases h
      rw [createEvmClient_of_creates hcreates] at hget
      obtain rfl : clientId w.nextClientSeq = id := by simpa [hget] using h
      exact Or.inr ⟨hfound, hcreates, rfl, hget⟩

/-- `main` after the configuration is read: the client, then the Cosmos side. -/
theorem pair_of_answered {u : World} {passed : List World} (hnet : net.answered .network = true)
    (hget : getOrCreateEvmClient net setup w = ⟨.ok id, u, passed⟩) :
    pair net setup w =
      ⟨(registerCosmosCounterparty net setup id u).result.map fun _ => id,
        (registerCosmosCounterparty net setup id u).world,
        passed ++ (registerCosmosCounterparty net setup id u).passed⟩ := by
  have hawait : await net .network w = ⟨.ok (), w, []⟩ := await_of_answered hnet
  rw [pair, Script.bind_of_ok (by rw [hawait]), hawait, Script.bind_of_ok (by rw [hget]), hget]
  cases hreg : (registerCosmosCounterparty net setup id u).result with
  | error e =>
      rw [Script.bind_of_error hreg]
      rfl
  | ok _ =>
      rw [Script.bind_of_ok hreg]
      simp [Except.map]

/-- A run that succeeds found the Cosmos side naming the client it settled on, or made it do so. -/
theorem pair_eq_ok (h : (pair net setup w).result = .ok id) :
    net.answered .network = true ∧ id ≠ [] ∧ ∃ u passed,
      getOrCreateEvmClient net setup w = ⟨.ok id, u, passed⟩ ∧
      ((u.counterparties setup.cosmosClientId = some id ∧ pair net setup w = ⟨.ok id, u, passed⟩) ∨
      (u.counterparties setup.cosmosClientId = none ∧ pair net setup w =
        ⟨.ok id, cosmosRegistered setup id u, passed ++ [cosmosRegistered setup id u]⟩)) := by
  have hnet : net.answered .network = true := by
    by_contra hq
    have hawait : await net .network w = _ := await_of_not_answered hq
    rw [pair, Script.bind_of_error (by rw [hawait])] at h
    cases h
  obtain ⟨_, -, hrest⟩ := Script.bind_eq_ok h
  have hworld : (await net .network w).world = w := rfl
  rw [hworld] at hrest
  obtain ⟨x, hx, -⟩ := Script.bind_eq_ok hrest
  have hget : getOrCreateEvmClient net setup w =
      ⟨.ok x, (getOrCreateEvmClient net setup w).world, (getOrCreateEvmClient net setup w).passed⟩ := by
    rw [← hx]
  have hpair := pair_of_answered hnet hget
  cases hreg : (registerCosmosCounterparty net setup x (getOrCreateEvmClient net setup w).world).result
    with
  | error e =>
      rw [hpair, hreg] at h
      cases h
  | ok _ =>
      obtain rfl : x = id := by simpa [hpair, hreg, Except.map] using h
      obtain ⟨hne, hcases⟩ := registerCosmosCounterparty_eq_ok hreg
      refine ⟨hnet, hne, _, _, hget, ?_⟩
      rcases hcases with ⟨hcp, hout⟩ | ⟨hcp, hout⟩
      · refine Or.inl ⟨hcp, ?_⟩
        rw [hpair, hout, List.append_nil]
        rfl
      · refine Or.inr ⟨hcp, ?_⟩
        rw [hpair, hout]
        rfl

/-! ## What a creation keeps -/

theorem EvmPaired.of_eq {u : World} (h : EvmPaired setup w id) (hclients : u.clients = w.clients)
    (hcontracts : u.contracts = w.contracts) : EvmPaired setup u id := by
  rw [EvmPaired, hclients, hcontracts]
  exact h

theorem evmPaired_registered (hbuilds : net.BuildsFor setup.verifierAddr) :
    EvmPaired setup (registered net setup w) (clientId w.nextClientSeq) := by
  obtain ⟨data, hdata, hsame⟩ := hbuilds
  exact ⟨⟨net.address w, setup.cosmosClientId⟩, _, data, Function.update_self _ _ _,
    Function.update_self _ _ _, hdata, hsame, rfl⟩

/-- Paired worlds stay paired through the rest of a run. -/
theorem EvmPaired.recorded (hbuilds : net.BuildsFor setup.verifierAddr) :
    EvmPaired setup (recorded net setup w) (clientId w.nextClientSeq) :=
  (evmPaired_registered hbuilds).of_eq rfl rfl

/-! ## The configuration the next run reads -/

/-- The configuration after the write, with `ETH_CLIENT_ID` naming the new client. -/
def renamed (setup : Setup) (seq : ℕ) : Setup :=
  { setup with
    ethClientId := some (clientId seq)
    named := fun h => clientId_ne_nil seq (Option.some.inj h) }

theorem readSetup_of_deployEnv {u : World} (h : u.deployEnv = w.deployEnv) :
    readSetup src mode u = readSetup src mode w := by
  simp only [readSetup, h]

/-- The keys of the configuration that a run takes for granted are not the ones it writes. -/
theorem ne_keys_of_mem_requiredKeys :
    ∀ k ∈ requiredKeys, k ≠ ethClientIdKey ∧ k ≠ sp1Ics07Key := by
  decide

theorem verifierKey_mem_requiredKeys (mode : VerifierMode) : verifierKey mode ∈ requiredKeys := by
  cases mode <;> decide

theorem cosmosClientIdKey_mem_requiredKeys : cosmosClientIdKey ∈ requiredKeys := by decide

/-- Only `ETH_CLIENT_ID` can read differently after the write. -/
theorem readSetup_recorded_eq {next : Setup} (h : readSetup src mode w = .ok setup)
    (hmode : next.mode = setup.mode) (hcosmos : next.cosmosClientId = setup.cosmosClientId)
    (hverifier : next.verifierAddr = setup.verifierAddr)
    (hnext : next.ethClientId =
      configured (src.load (recorded net setup w).deployEnv) ethClientIdKey) :
    readSetup src mode (recorded net setup w) = .ok next := by
  have hload : ∀ k ∈ requiredKeys,
      src.load (recorded net setup w).deployEnv k = src.load w.deployEnv k := by
    intro k hk
    obtain ⟨heth, hsp1⟩ := ne_keys_of_mem_requiredKeys k hk
    exact load_recorded_of_ne heth hsp1
  have hmissing : missing (src.load (recorded net setup w).deployEnv) requiredKeys =
      missing (src.load w.deployEnv) requiredKeys := by
    refine List.filter_congr ?_
    intro k hk
    rw [hload k hk]
  simp only [readSetup] at h ⊢
  rw [hmissing, hload _ cosmosClientIdKey_mem_requiredKeys,
    hload _ (verifierKey_mem_requiredKeys mode)]
  split at h
  · next hnone =>
      obtain rfl := Except.ok.inj h
      rw [if_pos hnone]
      obtain ⟨_, _, _, _, _⟩ := next
      simp only at hmode hcosmos hverifier hnext
      subst hmode hcosmos hverifier hnext
      rfl
  · cases h

theorem readSetup_recorded (hover : ¬ Overridden src) (h : readSetup src mode w = .ok setup) :
    readSetup src mode (recorded net setup w) = .ok (renamed setup w.nextClientSeq) := by
  refine readSetup_recorded_eq h rfl rfl rfl ?_
  rw [configured, load_recorded_ethClientId hover, Option.filter_some]
  rw [if_pos (by simpa using clientId_ne_nil w.nextClientSeq)]
  rfl

theorem readSetup_recorded_of_overridden (hover : Overridden src)
    (h : readSetup src mode w = .ok setup) :
    readSetup src mode (recorded net setup w) = .ok setup := by
  refine readSetup_recorded_eq h rfl rfl rfl ?_
  simp only [readSetup] at h
  split at h
  · obtain rfl := Except.ok.inj h
    simp only [configured, load_ethClientId_of_overridden hover]
  · cases h

/-! ## Success is a pairing, and running again changes nothing -/

/-- A run that finds its client paired on both sides does nothing. -/
theorem pair_of_paired (hans : ∀ q, net.answered q = true) (hid : setup.ethClientId = some id)
    (hevm : EvmPaired setup w id) (hcp : w.counterparties setup.cosmosClientId = some id) :
    pair net setup w = ⟨.ok id, w, []⟩ := by
  have hne : id ≠ [] := fun h => setup.named (h ▸ hid)
  have hget := getOrCreateEvmClient_of_reusable (reusable_of_evmPaired hans hid hevm)
  rw [pair_of_answered (hans _) hget, registerCosmosCounterparty_of_paired (hans _) hcp hne]
  rfl

/-- What a successful run leaves, in terms of the client it settled on before the Cosmos side. -/
theorem evmPaired_of_pair_eq_ok (h : (pair net setup w).result = .ok id) :
    EvmPaired setup (pair net setup w).world id ∧
      (pair net setup w).world.counterparties setup.cosmosClientId = some id := by
  obtain ⟨-, -, u, passed, hget, hcases⟩ := pair_eq_ok h
  have hevm : EvmPaired setup u id := by
    rcases getOrCreateEvmClient_eq_ok (by rw [hget]) with ⟨hreuse, hout⟩ | ⟨-, hcreates, rfl, hout⟩
    · obtain rfl : u = w := congrArg Outcome.world (hget.symm.trans hout)
      exact (evmPaired_of_reusable hreuse).2
    · obtain rfl : u = recorded net setup w := congrArg Outcome.world (hget.symm.trans hout)
      exact EvmPaired.recorded hcreates.builds
  rcases hcases with ⟨hcp, hout⟩ | ⟨-, hout⟩
  · rw [hout]
    exact ⟨hevm, hcp⟩
  · rw [hout]
    exact ⟨hevm.of_eq rfl rfl, Function.update_self _ _ _⟩

/-- The next run's configuration names the client this one settled on. -/
theorem readSetup_of_pair_eq_ok (hover : ¬ Overridden src) (hsetup : readSetup src mode w = .ok setup)
    (h : (pair net setup w).result = .ok id) :
    ∃ next, readSetup src mode (pair net setup w).world = .ok next ∧ next.ethClientId = some id ∧
      next.cosmosClientId = setup.cosmosClientId ∧ next.verifierAddr = setup.verifierAddr := by
  obtain ⟨-, -, u, passed, hget, hcases⟩ := pair_eq_ok h
  have hfile : (pair net setup w).world.deployEnv = u.deployEnv := by
    rcases hcases with ⟨-, hout⟩ | ⟨-, hout⟩ <;> rw [hout]
    rfl
  rw [readSetup_of_deployEnv hfile]
  rcases getOrCreateEvmClient_eq_ok (by rw [hget]) with ⟨hreuse, hout⟩ | ⟨-, -, rfl, hout⟩
  · obtain rfl : u = w := congrArg Outcome.world (hget.symm.trans hout)
    exact ⟨setup, hsetup, (evmPaired_of_reusable hreuse).1, rfl, rfl⟩
  · obtain rfl : u = recorded net setup w := congrArg Outcome.world (hget.symm.trans hout)
    exact ⟨_, readSetup_recorded hover hsetup, rfl, rfl, rfl⟩

/-- **A run that succeeds has paired the two chains, and running again changes nothing.** Of the first
run's queries only those it needs have to be answered; the second run's all are. -/
theorem createEthClient_pairs (hok : (createEthClient src net mode w).result = .ok id) :
    ∃ setup, readSetup src mode w = .ok setup ∧
      EvmPaired setup (createEthClient src net mode w).world id ∧
      (createEthClient src net mode w).world.counterparties setup.cosmosClientId = some id ∧
      (¬ Overridden src → ∀ net' : Net, (∀ q, net'.answered q = true) →
        createEthClient src net' mode (createEthClient src net mode w).world =
          ⟨.ok id, (createEthClient src net mode w).world, []⟩) := by
  obtain ⟨setup, hsetup, -⟩ := Script.query_bind_eq_ok hok
  rw [createEthClient_of_readSetup hsetup] at hok ⊢
  obtain ⟨hevm, hcp⟩ := evmPaired_of_pair_eq_ok hok
  refine ⟨setup, hsetup, hevm, hcp, ?_⟩
  intro hover net' hans
  obtain ⟨next, hnext, hid, hcosmos, hverifier⟩ := readSetup_of_pair_eq_ok hover hsetup hok
  rw [createEthClient_of_readSetup hnext]
  refine pair_of_paired hans hid ?_ ?_
  · rw [EvmPaired, hcosmos, hverifier]
    exact hevm
  · rw [hcosmos]
    exact hcp

end

/-! ## A devnet to run the script on -/

/-- The zero address as text. -/
def zeroAddress : Text := '0' :: 'x' :: List.replicate 40 '0'

/-- Every required key is in `devnet.env`; nothing else is configured. -/
def devnetSources : Sources where
  host := ⟨"/devnet".toList, "/home".toList, by decide, by decide⟩
  processEnv := fun _ => none
  example_ := none
  devnet := some (['\n'].intercalate ["CHAIN_ID=pqc".toList, "PROOF_API_ADDR=api".toList,
    "ICS26_ROUTER=router".toList, "DEPLOYER_PK=key".toList, "COSMOS_CLIENT_ID=08-wasm-0".toList,
    "SP1_VERIFIER_MOCK=".toList ++ zeroAddress, "SP1_VERIFIER_GROTH16=groth16".toList])
  ports := none
  cosmos := none

/-- What the script takes from it. -/
def devnetSetup : Setup where
  mode := .mock
  cosmosClientId := "08-wasm-0".toList
  verifierAddr := zeroAddress
  ethClientId := none
  named := by decide

/-- Everything is answered and succeeds; contracts are bound to the zero address. -/
def devnetNet : Net where
  answered := fun _ => true
  fate := fun _ => .done
  address := fun _ => ⟨List.replicate 20 1, by decide⟩
  built := fun _ => ⟨some (List.replicate 32 0)⟩

theorem devnetNet_buildsFor : devnetNet.BuildsFor devnetSetup.verifierAddr :=
  ⟨List.replicate 32 0, rfl, by decide⟩

/-- Before anything is deployed. -/
def freshWorld : World where
  contracts := fun _ => none
  clients := fun _ => none
  nextClientSeq := 0
  counterparties := fun _ => none
  deployEnv := none

theorem readSetup_fresh : readSetup devnetSources .mock freshWorld = .ok devnetSetup := by
  decide

theorem createEthClient_fresh :
    (createEthClient devnetSources devnetNet .mock freshWorld).result = .ok (clientId 0) := by
  rw [createEthClient_of_readSetup readSetup_fresh]
  decide

/-- On a fresh devnet the script pairs `client-0`. -/
theorem createEthClient_pairs_fresh : ∃ setup,
    readSetup devnetSources .mock freshWorld = .ok setup ∧
      EvmPaired setup (createEthClient devnetSources devnetNet .mock freshWorld).world (clientId 0) ∧
      (createEthClient devnetSources devnetNet .mock freshWorld).world.counterparties
        setup.cosmosClientId = some (clientId 0) ∧
      (¬ Overridden devnetSources → ∀ net' : Net, (∀ q, net'.answered q = true) →
        createEthClient devnetSources net' .mock
            (createEthClient devnetSources devnetNet .mock freshWorld).world =
          ⟨.ok (clientId 0), (createEthClient devnetSources devnetNet .mock freshWorld).world, []⟩) :=
  createEthClient_pairs createEthClient_fresh

end PqcMigration.Devnet.CreateEthClient
