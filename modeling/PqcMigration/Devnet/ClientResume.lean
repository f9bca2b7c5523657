/-
# PqcMigration.Devnet.ClientResume — `create-eth-client.js` killed half way, or answered badly.

Two laws the header and the comments of the script promise: "a partial prior run … resumes
correctly", and a failed query does not cost a pairing. Both FAIL, each in one way.

* The id a creation is assigned is consumed by `addClient` and recorded only afterwards. A kill in
  between moves the router's next id past a counterparty that was waiting for it (`resume_fails`).
* A failed counterparty query reads as "no counterparty", which lets a creation go on and write an id
  the Cosmos side can never take (`failed_query_strays`).

The exact conditions are `resumes_iff` and `keeps_name_iff`. The first comes from one criterion for a
normal run: it succeeds just if the client it would settle on is the one the Cosmos side names.
-/
import PqcMigration.Devnet.ClientPairing

namespace PqcMigration.Devnet.CreateEthClient

open Lib Config

/-! ## When a normal run succeeds -/

/-- Queries are answered, transactions succeed, and proof-api deploys what it is asked for. -/
structure Net.Normal (net : Net) (v : Text) : Prop where
  answered : ∀ q, net.answered q = true
  done : ∀ tx, net.fate tx = .done
  builds : net.BuildsFor v

/-- `ETH_CLIENT_ID` names a live client of the Cosmos client that is not bound to the requested
verifier. -/
def Misbound (setup : Setup) (w : World) : Prop :=
  ∃ id reg contract, setup.ethClientId = some id ∧ w.clients id = some reg ∧
    w.contracts reg.address = some contract ∧ reg.counterparty = setup.cosmosClientId ∧
    ∀ data, contract.verifierData = some data → lower (boundText data) ≠ lower setup.verifierAddr

/-- The client a normal run settles on: the one `ETH_CLIENT_ID` names if that is paired, else the next
one. -/
def Settles (setup : Setup) (w : World) (id : ClientId) : Prop :=
  (setup.ethClientId = some id ∧ EvmPaired setup w id) ∨
    ((∀ x, setup.ethClientId = some x → ¬ EvmPaired setup w x) ∧ id = clientId w.nextClientSeq)

/-- What a normal run needs: a client to settle on, and a Cosmos side that names no other. -/
def Ready (setup : Setup) (w : World) : Prop :=
  ¬ Misbound setup w ∧ ∀ c, w.counterparties setup.cosmosClientId = some c → Settles setup w c

section

variable {net : Net} {setup : Setup} {w : World} {id : ClientId}

theorem not_misbound_of_evmPaired (hid : setup.ethClientId = some id) (h : EvmPaired setup w id) :
    ¬ Misbound setup w := by
  rintro ⟨x, reg, contract, hx, hreg, hcontract, -, hbound⟩
  obtain ⟨reg', contract', data, hreg', hcontract', hdata, hsame, -⟩ := h
  obtain rfl : id = x := Option.some.inj (hid.symm.trans hx)
  obtain rfl : reg' = reg := Option.some.inj (hreg'.symm.trans hreg)
  obtain rfl : contract' = contract := Option.some.inj (hcontract'.symm.trans hcontract)
  exact hbound data hdata hsame

theorem reusable_of_misbound (hans : ∀ q, net.answered q = true) (h : Misbound setup w) :
    ∃ e, reusable net setup w = .error e := by
  obtain ⟨id, reg, contract, hid, hreg, hcontract, hcp, hbound⟩ := h
  cases hdata : contract.verifierData with
  | none =>
      simp [reusable, hid, getClient, hasLiveCode, getCounterparty, hans, hreg, hcontract, hcp,
        boundVerifier, hdata, bind, Except.bind]
  | some data =>
      simp [reusable, hid, getClient, hasLiveCode, getCounterparty, hans, hreg, hcontract, hcp,
        boundVerifier, hdata, hbound data hdata, bind, Except.bind, throw, throwThe,
        MonadExceptOf.throw]

theorem reusable_of_unpaired (hans : ∀ q, net.answered q = true)
    (hunpaired : ∀ x, setup.ethClientId = some x → ¬ EvmPaired setup w x) (hmis : ¬ Misbound setup w) :
    reusable net setup w = .ok none := by
  cases hid : setup.ethClientId with
  | none => simp [reusable, hid]
  | some id =>
      cases hreg : w.clients id with
      | none => simp [reusable, hid, getClient, hreg]
      | some reg =>
          cases hcontract : w.contracts reg.address with
          | none => simp [reusable, hid, getClient, hasLiveCode, hans, hreg, hcontract]
          | some contract =>
              by_cases hcp : reg.counterparty = setup.cosmosClientId
              · -- live and paired: bound to the verifier or to another, and neither can be
                refine absurd ?_ hmis
                refine ⟨id, reg, contract, hid, hreg, hcontract, hcp, ?_⟩
                intro data hdata hsame
                exact hunpaired id hid ⟨reg, contract, data, hreg, hcontract, hdata, hsame, hcp⟩
              · simp [reusable, hid, getClient, hasLiveCode, getCounterparty, hans, hreg, hcontract,
                  hcp, bind, Except.bind, pure, Except.pure]

theorem settles_of_pair_eq_ok (hans : ∀ q, net.answered q = true)
    (h : (pair net setup w).result = .ok id) : ¬ Misbound setup w ∧ Settles setup w id := by
  obtain ⟨-, -, u, passed, hget, -⟩ := pair_eq_ok h
  rcases getOrCreateEvmClient_eq_ok (by rw [hget]) with ⟨hreuse, -⟩ | ⟨hnone, -, hid, -⟩
  · obtain ⟨hid, hevm⟩ := evmPaired_of_reusable hreuse
    exact ⟨not_misbound_of_evmPaired hid hevm, Or.inl ⟨hid, hevm⟩⟩
  · refine ⟨?_, Or.inr ⟨?_, hid⟩⟩
    · intro hmis
      obtain ⟨e, he⟩ := reusable_of_misbound hans hmis
      rw [hnone] at he
      cases he
    · intro x hx hevm
      rw [reusable_of_evmPaired hans hx hevm] at hnone
      cases hnone

/-- The Cosmos side a successful run starts from names no client but the one it ends with. -/
theorem counterparty_of_pair_eq_ok (h : (pair net setup w).result = .ok id) {c : ClientId}
    (hc : w.counterparties setup.cosmosClientId = some c) : c = id := by
  obtain ⟨-, -, u, passed, hget, hcases⟩ := pair_eq_ok h
  have hsame : u.counterparties = w.counterparties := by
    rcases getOrCreateEvmClient_eq_ok (by rw [hget]) with ⟨-, hout⟩ | ⟨-, -, -, hout⟩
    · exact congrArg (fun o => o.world.counterparties) (hget.symm.trans hout)
    · exact congrArg (fun o => o.world.counterparties) (hget.symm.trans hout)
  rw [hsame, hc] at hcases
  rcases hcases with ⟨hcp, -⟩ | ⟨hcp, -⟩
  · exact Option.some.inj hcp
  · cases hcp

theorem creates_of_normal (hnet : net.Normal setup.verifierAddr)
    (hcp : ∀ c, w.counterparties setup.cosmosClientId = some c → c = clientId w.nextClientSeq) :
    Creates net setup w where
  may := by
    refine ⟨_, mayCreate_eq_ok.mpr ⟨rfl, ?_⟩⟩
    intro paired hseen
    obtain ⟨-, hpaired, -⟩ := counterpartyOf_eq_some hseen
    exact ⟨hnet.answered _, hcp paired hpaired⟩
  createClient := hnet.answered _
  deploy := hnet.done _
  deployedVerifier := hnet.answered _
  builds := hnet.builds
  addClient := hnet.done _
  registeredClient := hnet.answered _
  registeredCounterparty := hnet.answered _

/-- The Cosmos side of a normal run: the client has been settled on, and is named there or is free. -/
theorem pair_ok_of_getOrCreate {u : World} {passed : List World}
    (hnet : net.Normal setup.verifierAddr)
    (hget : getOrCreateEvmClient net setup w = ⟨.ok id, u, passed⟩) (hne : id ≠ [])
    (hcp : ∀ c, u.counterparties setup.cosmosClientId = some c → c = id) :
    (pair net setup w).result = .ok id := by
  rw [pair_of_answered (hnet.answered _) hget]
  cases hcases : u.counterparties setup.cosmosClientId with
  | none =>
      rw [registerCosmosCounterparty_of_none hnet.answered (hnet.done _) hcases hne]
      rfl
  | some c =>
      obtain rfl := hcp c hcases
      rw [registerCosmosCounterparty_of_paired (hnet.answered _) hcases hne]
      rfl

/-- **A normal run succeeds just if it is ready.** -/
theorem pair_succeeds_iff (hnet : net.Normal setup.verifierAddr) :
    (∃ id, (pair net setup w).result = .ok id) ↔ Ready setup w := by
  constructor
  · rintro ⟨id, h⟩
    obtain ⟨hmis, hsettles⟩ := settles_of_pair_eq_ok hnet.answered h
    refine ⟨hmis, ?_⟩
    intro c hc
    rw [counterparty_of_pair_eq_ok h hc]
    exact hsettles
  · rintro ⟨hmis, hcp⟩
    by_cases hpaired : ∃ x, setup.ethClientId = some x ∧ EvmPaired setup w x
    · obtain ⟨x, hx, hevm⟩ := hpaired
      have hget := getOrCreateEvmClient_of_reusable (reusable_of_evmPaired hnet.answered hx hevm)
      refine ⟨x, pair_ok_of_getOrCreate hnet hget (fun h => setup.named (h ▸ hx)) ?_⟩
      intro c hc
      rcases hcp c hc with ⟨hid, -⟩ | ⟨hnot, -⟩
      · exact Option.some.inj (hid.symm.trans hx)
      · exact absurd hevm (hnot x hx)
    · have hunpaired : ∀ x, setup.ethClientId = some x → ¬ EvmPaired setup w x :=
        fun x hx hevm => hpaired ⟨x, hx, hevm⟩
      have hnext : ∀ c, w.counterparties setup.cosmosClientId = some c →
          c = clientId w.nextClientSeq := by
        intro c hc
        rcases hcp c hc with ⟨hid, hevm⟩ | ⟨-, hid⟩
        · exact absurd hevm (hunpaired c hid)
        · exact hid
      have hget := getOrCreateEvmClient_of_none (reusable_of_unpaired hnet.answered hunpaired hmis)
      rw [createEvmClient_of_creates (creates_of_normal hnet hnext)] at hget
      exact ⟨_, pair_ok_of_getOrCreate hnet hget (clientId_ne_nil _) hnext⟩

/-! ## The worlds in between -/

/-- A deployment binds no client to another verifier. -/
theorem Misbound.of_deployed (hbuilds : net.BuildsFor setup.verifierAddr)
    (h : Misbound setup (deployed net setup w)) : Misbound setup w := by
  obtain ⟨id, reg, contract, hid, hreg, hcontract, hcp, hbound⟩ := h
  obtain ⟨data, hdata, hsame⟩ := hbuilds
  by_cases ha : reg.address = net.address w
  · have hbuilt : (deployed net setup w).contracts reg.address =
        some (net.built setup.verifierAddr) := by
      rw [ha]
      exact Function.update_self _ _ _
    obtain rfl := Option.some.inj (hbuilt.symm.trans hcontract)
    exact absurd hsame (hbound data hdata)
  · have hold : (deployed net setup w).contracts reg.address = w.contracts reg.address :=
      Function.update_of_ne ha _ _
    exact ⟨id, reg, contract, hid, hreg, hold ▸ hcontract, hcp, hbound⟩

theorem Misbound.of_registered (hbuilds : net.BuildsFor setup.verifierAddr)
    (h : Misbound setup (registered net setup w)) : Misbound setup w := by
  apply Misbound.of_deployed hbuilds
  have h' := h
  obtain ⟨id, reg, contract, hid, hreg, hcontract, hcp, hbound⟩ := h
  by_cases hx : id = clientId w.nextClientSeq
  · -- the new client is bound to the requested verifier
    rw [hx] at hid
    exact absurd h' (not_misbound_of_evmPaired hid (evmPaired_registered hbuilds))
  · have hold : (registered net setup w).clients id = w.clients id := Function.update_of_ne hx _ _
    exact ⟨id, reg, contract, hid, hold ▸ hreg, hcontract, hcp, hbound⟩

theorem settles_of_named {n : ℕ} (hid : setup.ethClientId = some (clientId n))
    (h : w.nextClientSeq = n ∨ EvmPaired setup w (clientId n)) : Settles setup w (clientId n) := by
  by_cases hevm : EvmPaired setup w (clientId n)
  · exact Or.inl ⟨hid, hevm⟩
  · refine Or.inr ⟨?_, by rw [h.resolve_right hevm]⟩
    intro x hx
    obtain rfl : clientId n = x := Option.some.inj (hid.symm.trans hx)
    exact hevm

/-- Once the router has assigned an id that the configuration does not name, no run settles on it. -/
theorem not_settles_of_consumed {n : ℕ} (hid : setup.ethClientId ≠ some (clientId n))
    (hseq : w.nextClientSeq = n + 1) : ¬ Settles setup w (clientId n) := by
  rintro (⟨h, -⟩ | ⟨-, h⟩)
  · exact hid h
  · have := clientId_injective h
    omega

theorem ready_of_named (hid : setup.ethClientId = some id) (hevm : EvmPaired setup w id)
    (hcp : ∀ c, w.counterparties setup.cosmosClientId = some c → c = id) : Ready setup w := by
  refine ⟨not_misbound_of_evmPaired hid hevm, ?_⟩
  intro c hc
  rw [hcp c hc]
  exact Or.inl ⟨hid, hevm⟩

end

/-! ## Running again after a kill -/

section

variable {src : Sources} {mode : VerifierMode} {net : Net} {setup : Setup} {w : World} {id : ClientId}

/-- Every normal run from this world succeeds. -/
def Resumes (src : Sources) (mode : VerifierMode) (v : Text) (u : World) : Prop :=
  ∀ net : Net, net.Normal v → ∃ id, (createEthClient src net mode u).result = .ok id

theorem resumes_of_ready (hsetup : readSetup src mode w = .ok setup) (h : Ready setup w) :
    Resumes src mode setup.verifierAddr w := by
  intro net hnet
  rw [createEthClient_of_readSetup hsetup]
  exact (pair_succeeds_iff hnet).mpr h

/-- Some deployment is bound to the verifier, so there is a normal run to speak of. -/
theorem ready_of_resumes (hbuilds : net.BuildsFor setup.verifierAddr)
    (hsetup : readSetup src mode w = .ok setup) (h : Resumes src mode setup.verifierAddr w) :
    Ready setup w := by
  let normal : Net := { net with answered := fun _ => true, fate := fun _ => .done }
  have hnormal : normal.Normal setup.verifierAddr := ⟨fun _ => rfl, fun _ => rfl, hbuilds⟩
  obtain ⟨id, hid⟩ := h normal hnormal
  rw [createEthClient_of_readSetup hsetup] at hid
  exact (pair_succeeds_iff hnormal).mp ⟨id, hid⟩

/-- A run that reuses its client can be killed anywhere. -/
theorem resumes_of_reused (hsetup : readSetup src mode w = .ok setup)
    (hok : (pair net setup w).result = .ok id) (hreuse : reusable net setup w = .ok (some id)) :
    ∀ u ∈ (pair net setup).crashWorlds w, Resumes src mode setup.verifierAddr u := by
  obtain ⟨hid, hevm⟩ := evmPaired_of_reusable hreuse
  obtain ⟨-, -, u, passed, hget, hcases⟩ := pair_eq_ok hok
  rw [getOrCreateEvmClient_of_reusable hreuse] at hget
  obtain ⟨-, rfl, rfl⟩ := Outcome.mk.inj hget
  intro u hu
  rcases List.mem_cons.mp hu with rfl | hu
  · refine resumes_of_ready hsetup (ready_of_named hid hevm ?_)
    intro c hc
    exact counterparty_of_pair_eq_ok hok hc
  rcases hcases with ⟨-, hout⟩ | ⟨-, hout⟩
  · rw [hout] at hu
    cases hu
  · rw [hout] at hu
    obtain rfl := List.mem_singleton.mp hu
    refine resumes_of_ready ((readSetup_of_deployEnv rfl).trans hsetup)
      (ready_of_named hid (hevm.of_eq rfl rfl) ?_)
    intro c hc
    exact (Option.some.inj (hc.symm.trans (Function.update_self _ _ _)))

/-- The worlds a creation can be killed in. -/
theorem crashWorlds_of_created (hok : (pair net setup w).result = .ok id)
    (hnone : reusable net setup w = .ok none) :
    Creates net setup w ∧ id = clientId w.nextClientSeq ∧
      ((w.counterparties setup.cosmosClientId = some id ∧ (pair net setup).crashWorlds w =
        [w, deployed net setup w, registered net setup w, recorded net setup w]) ∨
      (w.counterparties setup.cosmosClientId = none ∧ (pair net setup).crashWorlds w =
        [w, deployed net setup w, registered net setup w, recorded net setup w,
          cosmosRegistered setup id (recorded net setup w)])) := by
  obtain ⟨-, -, u, passed, hget, hcases⟩ := pair_eq_ok hok
  rcases getOrCreateEvmClient_eq_ok (by rw [hget]) with ⟨hreuse, -⟩ | ⟨-, hcreates, hid, hout⟩
  · rw [hnone] at hreuse
    cases hreuse
  rw [hout] at hget
  obtain ⟨-, rfl, rfl⟩ := Outcome.mk.inj hget
  refine ⟨hcreates, hid, ?_⟩
  rcases hcases with ⟨hcp, hpair⟩ | ⟨hcp, hpair⟩
  · exact Or.inl ⟨hcp, by rw [Script.crashWorlds, hpair]⟩
  · exact Or.inr ⟨hcp, by rw [Script.crashWorlds, hpair]; rfl⟩

/-- Up to the write the configuration is the one the killed run read; that run resumes if
`ETH_CLIENT_ID` named its client from the start, or if the Cosmos side waits for none. -/
theorem resumes_unrecorded {u : World} {n : ℕ} (hsetup : readSetup src mode w = .ok setup)
    (hname : setup.ethClientId = some (clientId n) ∨ w.counterparties setup.cosmosClientId = none)
    (hcp : ∀ c, w.counterparties setup.cosmosClientId = some c → c = clientId n)
    (hfile : u.deployEnv = w.deployEnv) (hsame : u.counterparties = w.counterparties)
    (hmis : ¬ Misbound setup u) (hnext : u.nextClientSeq = n ∨ EvmPaired setup u (clientId n)) :
    Resumes src mode setup.verifierAddr u := by
  refine resumes_of_ready ((readSetup_of_deployEnv hfile).trans hsetup) ⟨hmis, ?_⟩
  intro c hc
  rw [hsame] at hc
  rcases hname with hid | hfree
  · rw [hcp c hc]
    exact settles_of_named hid hnext
  · rw [hfree] at hc
    cases hc

/-- After the write the configuration names the new client, unless `ETH_CLIENT_ID` is set elsewhere;
then the run resumes if that names it too. -/
theorem resumes_recorded {u : World} (hcreates : Creates net setup w)
    (hsetup : readSetup src mode w = .ok setup)
    (hname : setup.ethClientId = some (clientId w.nextClientSeq) ∨ ¬ Overridden src)
    (hfile : u.deployEnv = (recorded net setup w).deployEnv)
    (hclients : u.clients = (recorded net setup w).clients)
    (hcontracts : u.contracts = (recorded net setup w).contracts)
    (hcp : ∀ c, u.counterparties setup.cosmosClientId = some c → c = clientId w.nextClientSeq) :
    Resumes src mode setup.verifierAddr u := by
  have hevm : EvmPaired setup u (clientId w.nextClientSeq) :=
    (EvmPaired.recorded hcreates.builds).of_eq hclients hcontracts
  by_cases hover : Overridden src
  · have hid := hname.resolve_right (not_not.mpr hover)
    have hread := (readSetup_of_deployEnv hfile).trans (readSetup_recorded_of_overridden hover hsetup)
    exact resumes_of_ready hread (ready_of_named hid hevm hcp)
  · have hread := (readSetup_of_deployEnv hfile).trans (readSetup_recorded hover hsetup)
    have hready : Ready (renamed setup w.nextClientSeq) u := ready_of_named rfl hevm hcp
    show Resumes src mode (renamed setup w.nextClientSeq).verifierAddr u
    exact resumes_of_ready hread hready

/-- **When a killed run can be made up for.** For a run that would have succeeded: it reuses its
client; or it creates one, and either `ETH_CLIENT_ID` names the id it will be assigned, or the Cosmos
side names no client yet and `ETH_CLIENT_ID` is not set outside the generated files. (The client
`ETH_CLIENT_ID` names must not be bound to another verifier, which the killed run may have missed by a
failed query.) -/
theorem resumes_iff (hsetup : readSetup src mode w = .ok setup)
    (hok : (createEthClient src net mode w).result = .ok id) :
    (∀ u ∈ (createEthClient src net mode).crashWorlds w, ∀ net' : Net,
        net'.Normal setup.verifierAddr → ∃ id', (createEthClient src net' mode u).result = .ok id') ↔
      reusable net setup w = .ok (some id) ∨
        (¬ Misbound setup w ∧ (setup.ethClientId = some (clientId w.nextClientSeq) ∨
          (w.counterparties setup.cosmosClientId = none ∧ ¬ Overridden src))) := by
  have hworlds : (createEthClient src net mode).crashWorlds w = (pair net setup).crashWorlds w := by
    rw [Script.crashWorlds, Script.crashWorlds, createEthClient_of_readSetup hsetup]
  rw [createEthClient_of_readSetup hsetup] at hok
  rw [hworlds]
  show (∀ u ∈ (pair net setup).crashWorlds w, Resumes src mode setup.verifierAddr u) ↔ _
  obtain ⟨-, -, u, passed, hget, -⟩ := pair_eq_ok hok
  rcases getOrCreateEvmClient_eq_ok (by rw [hget]) with ⟨hreuse, -⟩ | ⟨hnone, -⟩
  · exact ⟨fun _ => Or.inl hreuse, fun _ => resumes_of_reused hsetup hok hreuse⟩
  obtain ⟨hcreates, rfl, hcases⟩ := crashWorlds_of_created hok hnone
  constructor
  · intro hall
    right
    have hready : ∀ u ∈ (pair net setup).crashWorlds w, u.deployEnv = w.deployEnv →
        Ready setup u := by
      intro u hu hfile
      exact ready_of_resumes hcreates.builds ((readSetup_of_deployEnv hfile).trans hsetup) (hall u hu)
    refine ⟨(hready w List.mem_cons_self rfl).1, ?_⟩
    by_contra hnot
    obtain ⟨hname, hfree⟩ := not_or.mp hnot
    rcases hcases with ⟨hcp, hlist⟩ | ⟨hcp, hlist⟩
    · -- killed after `addClient`: the id the Cosmos side waits for is gone
      have hregistered := hready (registered net setup w) (by simp [hlist]) rfl
      exact not_settles_of_consumed hname rfl (hregistered.2 _ hcp)
    · -- killed at the end: the file is not what the configuration reads
      have hover : Overridden src := by
        by_contra hover
        exact hfree ⟨hcp, hover⟩
      set final := cosmosRegistered setup (clientId w.nextClientSeq) (recorded net setup w)
      have hread : readSetup src mode final = .ok setup :=
        (readSetup_of_deployEnv rfl).trans (readSetup_recorded_of_overridden hover hsetup)
      have hfinal := ready_of_resumes hcreates.builds hread (hall final (by simp [hlist]))
      exact not_settles_of_consumed hname rfl (hfinal.2 _ (Function.update_self _ _ _))
  · rintro (hreuse | ⟨hmis, hname⟩)
    · rw [hnone] at hreuse
      cases hreuse
    have hcp : ∀ c, w.counterparties setup.cosmosClientId = some c → c = clientId w.nextClientSeq :=
      fun c hc => counterparty_of_pair_eq_ok hok hc
    have hearly := hname.imp_right And.left
    have hlate := hname.imp_right And.right
    have hw : Resumes src mode setup.verifierAddr w :=
      resumes_unrecorded hsetup hearly hcp rfl rfl hmis (Or.inl rfl)
    have hdeployed : Resumes src mode setup.verifierAddr (deployed net setup w) :=
      resumes_unrecorded hsetup hearly hcp rfl rfl
        (fun h => hmis (h.of_deployed hcreates.builds)) (Or.inl rfl)
    have hregistered : Resumes src mode setup.verifierAddr (registered net setup w) :=
      resumes_unrecorded hsetup hearly hcp rfl rfl
        (fun h => hmis (h.of_registered hcreates.builds)) (Or.inr (evmPaired_registered hcreates.builds))
    have hrecorded : Resumes src mode setup.verifierAddr (recorded net setup w) :=
      resumes_recorded hcreates hsetup hlate rfl rfl rfl hcp
    rcases hcases with ⟨-, hlist⟩ | ⟨-, hlist⟩
    · rw [hlist]
      simp only [List.forall_mem_cons, List.not_mem_nil, false_implies, implies_true, and_true]
      exact ⟨hw, hdeployed, hregistered, hrecorded⟩
    · rw [hlist]
      simp only [List.forall_mem_cons, List.not_mem_nil, false_implies, implies_true, and_true]
      refine ⟨hw, hdeployed, hregistered, hrecorded, ?_⟩
      refine resumes_recorded hcreates hsetup hlate rfl rfl rfl ?_
      intro c hc
      exact Option.some.inj (hc.symm.trans (Function.update_self _ _ _))

/-! ## Failed queries -/

/-- The Cosmos side of a run leaves everything else as it is. -/
theorem registerCosmosCounterparty_keeps {β : Type} (f : World → β)
    (hf : ∀ u c, f { u with counterparties := c } = f u) :
    f (registerCosmosCounterparty net setup id w).world = f w ∧
      ∀ u ∈ (registerCosmosCounterparty net setup id w).passed, f u = f w := by
  rw [registerCosmosCounterparty]
  cases halready : alreadyRegistered net setup id w with
  | error e =>
      rw [Script.query_bind_of_error halready]
      exact ⟨rfl, by simp⟩
  | ok already =>
  rw [Script.query_bind_of_ok halready]
  cases already with
  | true => exact ⟨rfl, by simp⟩
  | false =>
      show f (submitCounterparty net setup id w).world = f w ∧
        ∀ u ∈ (submitCounterparty net setup id w).passed, f u = f w
      rw [submitCounterparty]
      by_cases hkey : net.answered .signerKey = true
      swap
      · have hawait : await net .signerKey w = _ := await_of_not_answered hkey
        rw [Script.bind_of_error (by rw [hawait]), hawait]
        exact ⟨rfl, by simp⟩
      have hawait : await net .signerKey w = _ := await_of_answered hkey
      rw [Script.bind_of_ok (by rw [hawait]), hawait]
      have hkeeps : f (registerCounterparty net setup id w).world = f w ∧
          ∀ u ∈ (registerCounterparty net setup id w).passed, f u = f w :=
        registerCounterparty_keeps f hf
      cases hres : (registerCounterparty net setup id w).result with
      | error e =>
          rw [Script.bind_of_error hres]
          exact hkeeps
      | ok _ =>
          rw [Script.bind_of_ok hres]
          simpa using hkeeps

/-- `deploy.env` names a client other than `p`. -/
def NamesOther (host : Host) (w : World) (p : ClientId) : Prop :=
  ∃ id, parseEnvFile host w.deployEnv ethClientIdKey = some id ∧ id ≠ [] ∧ id ≠ p

theorem namesOther_of_deployEnv {host : Host} {u : World} {p : ClientId}
    (h : u.deployEnv = w.deployEnv) : NamesOther host u p ↔ NamesOther host w p := by
  rw [NamesOther, NamesOther, h]

theorem namesOther_recorded {host : Host} {u : World} {p : ClientId}
    (h : u.deployEnv = (recorded net setup w).deployEnv) :
    NamesOther host u p ↔ clientId w.nextClientSeq ≠ p := by
  rw [namesOther_of_deployEnv h, NamesOther, parse_recorded_ethClientId]
  constructor
  · rintro ⟨id, hid, -, hne⟩
    obtain rfl := Option.some.inj hid
    exact hne
  · intro hne
    exact ⟨_, rfl, clientId_ne_nil _, hne⟩

/-- A run writes the file only where it creates a client. -/
theorem deployEnv_of_not_created (h : ¬ (net.answered .network = true ∧
      reusable net setup w = .ok none ∧ Creates net setup w)) :
    (pair net setup w).world.deployEnv = w.deployEnv ∧
      ∀ u ∈ (pair net setup w).passed, u.deployEnv = w.deployEnv := by
  by_cases hnet : net.answered .network = true
  swap
  · have hawait : await net .network w = _ := await_of_not_answered hnet
    rw [pair, Script.bind_of_error (by rw [hawait]), hawait]
    exact ⟨rfl, by simp⟩
  have hawait : await net .network w = _ := await_of_answered hnet
  -- a client that could not be settled on ends the run where that left off
  have hraised : ∀ o, getOrCreateEvmClient net setup w = o → RaisedUnrecorded w o →
      (pair net setup w).world.deployEnv = w.deployEnv ∧
        ∀ u ∈ (pair net setup w).passed, u.deployEnv = w.deployEnv := by
    rintro o rfl ⟨⟨e, he⟩, hworld, hpassed⟩
    rw [pair, Script.bind_of_ok (by rw [hawait]), hawait, Script.bind_of_error he]
    exact ⟨hworld, hpassed⟩
  cases hreuse : reusable net setup w with
  | error e => exact hraised _ (Script.query_bind_of_error hreuse) ⟨⟨e, rfl⟩, rfl, by simp⟩
  | ok found =>
  cases found with
  | some id =>
      rw [pair_of_answered hnet (getOrCreateEvmClient_of_reusable hreuse)]
      exact registerCosmosCounterparty_keeps World.deployEnv fun _ _ => rfl
  | none =>
      have hnot : ¬ Creates net setup w := fun hcreates => h ⟨hnet, hreuse, hcreates⟩
      exact hraised _ (getOrCreateEvmClient_of_none hreuse) (createEvmClient_of_not_creates hnot)

/-- **When failed queries break a pairing.** For a Cosmos client paired with `p`, and a file that
names no other client: the run leaves it so unless it goes on to create a client, which takes a failed
query for the counterparty, and `p` is not the id the router assigns next. -/
theorem keeps_name_iff {p : ClientId} (hsetup : readSetup src mode w = .ok setup)
    (hpaired : w.counterparties setup.cosmosClientId = some p) (hp : p ≠ [])
    (hbefore : ¬ NamesOther src.host w p) :
    (¬ NamesOther src.host (createEthClient src net mode w).world p ∧
        ∀ u ∈ (createEthClient src net mode).crashWorlds w, ¬ NamesOther src.host u p) ↔
      ¬ (net.answered .network = true ∧ reusable net setup w = .ok none ∧ Creates net setup w ∧
        net.answered .existingCounterparty = false ∧ clientId w.nextClientSeq ≠ p) := by
  rw [Script.crashWorlds, createEthClient_of_readSetup hsetup, List.forall_mem_cons]
  by_cases hcreated : net.answered .network = true ∧ reusable net setup w = .ok none ∧
      Creates net setup w
  swap
  · obtain ⟨hworld, hpassed⟩ := deployEnv_of_not_created hcreated
    refine iff_of_true ⟨?_, hbefore, ?_⟩ ?_
    · rwa [namesOther_of_deployEnv hworld]
    · intro u hu
      rwa [namesOther_of_deployEnv (hpassed u hu)]
    · rintro ⟨hnet, hnone, hcreates, -⟩
      exact hcreated ⟨hnet, hnone, hcreates⟩
  obtain ⟨hnet, hnone, hcreates⟩ := hcreated
  -- the run goes on to the write, so the file names the new client from there on
  have hget := (getOrCreateEvmClient_of_none hnone).trans (createEvmClient_of_creates hcreates)
  let cosmos := registerCosmosCounterparty net setup (clientId w.nextClientSeq) (recorded net setup w)
  have hkeeps : cosmos.world.deployEnv = (recorded net setup w).deployEnv ∧
      ∀ u ∈ cosmos.passed, u.deployEnv = (recorded net setup w).deployEnv :=
    registerCosmosCounterparty_keeps World.deployEnv fun _ _ => rfl
  -- an answered query would have stopped the creation of any other id
  have hsame : net.answered .existingCounterparty = true → clientId w.nextClientSeq = p := by
    intro hq
    obtain ⟨existing, hmay⟩ := hcreates.may
    obtain ⟨hseen, hnext⟩ := mayCreate_eq_ok.mp hmay
    rw [counterpartyOf_of_answered hq hpaired hp] at hseen
    exact (hnext p hseen.symm).2.symm
  rw [pair_of_answered hnet hget]
  constructor
  · rintro ⟨hend, -⟩ ⟨-, -, -, -, hne⟩
    exact hend ((namesOther_recorded hkeeps.1).mpr hne)
  · intro hnot
    have heq : clientId w.nextClientSeq = p := by
      by_contra hne
      refine hnot ⟨hnet, hnone, hcreates, ?_, hne⟩
      exact Bool.eq_false_iff.mpr fun hq => hne (hsame hq)
    refine ⟨?_, hbefore, ?_⟩
    · rw [namesOther_recorded hkeeps.1]
      exact not_not.mpr heq
    · intro u hu
      have hfile : u.deployEnv = w.deployEnv ∨ u.deployEnv = (recorded net setup w).deployEnv := by
        rcases List.mem_append.mp hu with hu | hu
        · simp only [List.mem_cons, List.not_mem_nil, or_false] at hu
          rcases hu with rfl | rfl | rfl
          · exact Or.inl rfl
          · exact Or.inl rfl
          · exact Or.inr rfl
        · exact Or.inr (hkeeps.2 u hu)
      rcases hfile with hfile | hfile
      · rwa [namesOther_of_deployEnv hfile]
      · rw [namesOther_recorded hfile]
        exact not_not.mpr heq

end

/-! ## The two failures -/

theorem devnetNet_normal : devnetNet.Normal devnetSetup.verifierAddr :=
  ⟨fun _ => rfl, fun _ => rfl, devnetNet_buildsFor⟩

/-- On a fresh devnet the script can be killed anywhere. -/
theorem resumes_fresh :
    (createEthClient devnetSources devnetNet .mock freshWorld).result = .ok (clientId 0) ∧
      ∀ u ∈ (createEthClient devnetSources devnetNet .mock).crashWorlds freshWorld, ∀ net' : Net,
        net'.Normal devnetSetup.verifierAddr →
          ∃ id', (createEthClient devnetSources net' .mock u).result = .ok id' := by
  refine ⟨createEthClient_fresh, ?_⟩
  refine (resumes_iff readSetup_fresh createEthClient_fresh).mpr (Or.inr ⟨?_, Or.inr ⟨rfl, ?_⟩⟩)
  · rintro ⟨id, -, -, hid, -⟩
    cases hid
  · rw [Overridden]
    decide

/-- The Cosmos side has been told to expect `client-0`. -/
def promisedWorld : World :=
  { freshWorld with counterparties := fun _ => some (clientId 0) }

theorem readSetup_promised : readSetup devnetSources .mock promisedWorld = .ok devnetSetup :=
  (readSetup_of_deployEnv rfl).trans readSetup_fresh

theorem pair_promised : (pair devnetNet devnetSetup promisedWorld).result = .ok (clientId 0) := by
  decide

/-- An uninterrupted run pairs `client-0`. Killed between `addClient` and the write it leaves a router
whose next id is `client-1`, and no file; the next run sees that these "can never match". -/
theorem resume_fails : devnetNet.Normal devnetSetup.verifierAddr ∧
    (createEthClient devnetSources devnetNet .mock promisedWorld).result = .ok (clientId 0) ∧
    ∃ u ∈ (createEthClient devnetSources devnetNet .mock).crashWorlds promisedWorld,
      (createEthClient devnetSources devnetNet .mock u).result =
        .error (.canNeverMatch (clientId 0) (clientId 1)) := by
  rw [Script.crashWorlds, createEthClient_of_readSetup readSetup_promised]
  refine ⟨devnetNet_normal, pair_promised, registered devnetNet devnetSetup promisedWorld, ?_, ?_⟩
  · obtain ⟨-, -, ⟨-, hlist⟩ | ⟨hfree, -⟩⟩ := crashWorlds_of_created pair_promised rfl
    · rw [Script.crashWorlds] at hlist
      simp [hlist]
    · cases hfree
  · have hread : readSetup devnetSources .mock (registered devnetNet devnetSetup promisedWorld) =
        .ok devnetSetup := (readSetup_of_deployEnv rfl).trans readSetup_fresh
    rw [createEthClient_of_readSetup hread]
    decide

/-- What the script leaves on a fresh devnet. -/
def pairedWorld : World where
  contracts := fun a => if a = devnetNet.address freshWorld then some ⟨some (List.replicate 32 0)⟩ else none
  clients := fun id => if id = clientId 0 then
    some ⟨devnetNet.address freshWorld, devnetSetup.cosmosClientId⟩ else none
  nextClientSeq := 1
  counterparties := fun _ => some (clientId 0)
  deployEnv := some "ETH_CLIENT_ID=client-0\n".toList

def pairedSetup : Setup :=
  { devnetSetup with ethClientId := some (clientId 0), named := by decide }

theorem readSetup_paired : readSetup devnetSources .mock pairedWorld = .ok pairedSetup := by
  decide

theorem not_namesOther_paired : ¬ NamesOther devnetSources.host pairedWorld (clientId 0) := by
  have hfile : parseEnvFile devnetSources.host pairedWorld.deployEnv ethClientIdKey =
      some (clientId 0) := by decide
  rintro ⟨id, hid, -, hne⟩
  exact hne (Option.some.inj (hid.symm.trans hfile))

/-- With every query answered the name stays. -/
theorem keeps_name_paired :
    ¬ NamesOther devnetSources.host
      (createEthClient devnetSources devnetNet .mock pairedWorld).world (clientId 0) := by
  refine ((keeps_name_iff readSetup_paired rfl (clientId_ne_nil 0) not_namesOther_paired).mpr ?_).1
  rintro ⟨-, -, -, hq, -⟩
  cases hq

/-- The two queries that fail are for the client and for the counterparty. -/
def flakyNet : Net :=
  { devnetNet with answered := fun q => decide (q ≠ .client ∧ q ≠ .existingCounterparty) }

/-- The file named the client both chains are paired with; after the run it names `client-1`, which
the Cosmos side can never take. -/
theorem failed_query_strays :
    ¬ NamesOther devnetSources.host pairedWorld (clientId 0) ∧
      (createEthClient devnetSources flakyNet .mock pairedWorld).result =
        .error (.pairedWith (clientId 0)) ∧
      NamesOther devnetSources.host
        (createEthClient devnetSources flakyNet .mock pairedWorld).world (clientId 0) := by
  rw [createEthClient_of_readSetup readSetup_paired]
  refine ⟨not_namesOther_paired, by decide, clientId 1, by decide, ?_, ?_⟩
  · exact clientId_ne_nil 1
  · intro h
    exact absurd (clientId_injective h) (by decide)

end PqcMigration.Devnet.CreateEthClient
