/-
# PqcMigration.Devnet.UpdateEthClient — `devnet/relayer/update-eth-client.py`, run by several workers at
once.

Each process resolves the address of its own key, puts that address into a `MsgUpdateClient` as the
signer, writes the message to `msg-update-eth-client.json` in the devnet directory, and has `sendtx.py`
read the file, sign what it read with the process's key and broadcast it, up to six times while the chain's
clock is behind. The file has ONE name for all processes, so a process may read what another wrote.

To write is two steps, since opening the file empties it; what `sendtx.py` has read is its own copy. That
`tx sign` refuses a message that declares another signer is what `build-recv-msgs.js` says of the chain's
binary, and the hypothesis here (`RefusesOthers`).
-/
import PqcMigration.Lib.Run
import PqcMigration.Lib.Threads

namespace PqcMigration.Devnet

open Lib

/-! ## Processes -/

/-- What differs between two `MsgUpdateClient`s: the client, the two slots of the header, the signer. -/
structure UpdateMsg where
  clientId : List Char
  trustedSlot : ℕ
  newSlot : ℕ
  signer : List Char
  deriving DecidableEq

/-- The processes of one devnet directory, each started with a key and a client. -/
structure Updaters (ι : Type) where
  /-- `SIGNER_KEY` -/
  key : ι → List Char
  /-- `CLIENT_ID` -/
  clientId : ι → List Char
  /-- `keys show <key> -a` -/
  address : List Char → List Char

/-- `SIGNER_ADDR` -/
def Updaters.signerAddr {ι : Type} (u : Updaters ι) (i : ι) : List Char := u.address (u.key i)

/-- Where a process stands. -/
inductive UpdatePc where
  | start
  /-- the finalized slot is newer than the trusted one -/
  | ready (trustedSlot newSlot : ℕ)
  /-- the file is open, and empty -/
  | opened (msg : UpdateMsg)
  /-- `sendtx.py` is to read the file; `attempt` sends were too early -/
  | written (attempt : ℕ)
  /-- it is to sign what it has read -/
  | read (attempt : ℕ) (msg : UpdateMsg)
  /-- it is to broadcast what it has signed -/
  | signed (attempt : ℕ) (msg : UpdateMsg)
  | done
  deriving DecidableEq

/-- A transaction: the message in it, and the key it is signed with. -/
structure UpdateTx where
  msg : UpdateMsg
  key : List Char
  deriving DecidableEq

structure UpdateState (ι : Type) where
  pc : ι → UpdatePc
  /-- `msg-update-eth-client.json`; without a message in it, `json.load` raises -/
  file : Option UpdateMsg
  submitted : List UpdateTx

inductive UpdateEvent (ι : Type) where
  /-- the process has read the trusted slot and the finality update -/
  | look (i : ι) (trustedSlot newSlot : ℕ)
  | opens (i : ι)
  | write (i : ι)
  | read (i : ι)
  | sign (i : ι)
  /-- `early`: the answer has "more recent than the calculated current slot" in it -/
  | submit (i : ι) (early : Bool)
  /-- `sendtx.py` exits before the broadcast -/
  | fail (i : ι)

section Step

variable {ι : Type} [DecidableEq ι]

def UpdateState.to (s : UpdateState ι) (i : ι) (p : UpdatePc) : UpdateState ι :=
  { s with pc := Function.update s.pc i p }

variable (u : Updaters ι) (signs : List Char → UpdateMsg → Bool)

def updateStep (s : UpdateState ι) : UpdateEvent ι → Option (UpdateState ι)
  | .look i trustedSlot newSlot =>
      if s.pc i = .start then
        some (s.to i (if newSlot ≤ trustedSlot then .done else .ready trustedSlot newSlot))
      else none
  | .opens i =>
      match s.pc i with
      | .ready trustedSlot newSlot =>
          some { s.to i (.opened ⟨u.clientId i, trustedSlot, newSlot, u.signerAddr i⟩) with file := none }
      | _ => none
  | .write i =>
      match s.pc i with
      | .opened msg => some { s.to i (.written 0) with file := some msg }
      | _ => none
  | .read i =>
      match s.pc i with
      | .written attempt => some (s.to i (s.file.elim .done (.read attempt)))
      | _ => none
  | .sign i =>
      match s.pc i with
      -- a refusal asks for no other attempt
      | .read attempt msg => some (s.to i (if signs (u.key i) msg then .signed attempt msg else .done))
      | _ => none
  | .submit i early =>
      match s.pc i with
      | .signed attempt msg =>
          some { s.to i (if early ∧ attempt + 1 < 6 then .written (attempt + 1) else .done) with
            submitted := s.submitted ++ [⟨msg, u.key i⟩] }
      | _ => none
  | .fail i =>
      match s.pc i with
      | .read _ _ | .signed _ _ => some (s.to i .done)
      | _ => none

def updateStart : UpdateState ι := ⟨fun _ => .start, none, []⟩

variable {u signs} {s t : UpdateState ι} {e : UpdateEvent ι}

/-- What a step can do to the transactions: a process that moves on has signed what it is to broadcast, and
only what was signed is broadcast. -/
theorem updateStep_cases (h : updateStep u signs s e = some t) :
    ∃ i next, t.pc = Function.update s.pc i next ∧
      (∀ attempt msg, next = .signed attempt msg → signs (u.key i) msg = true) ∧
      (t.submitted = s.submitted ∨ ∃ attempt msg, s.pc i = .signed attempt msg ∧
        t.submitted = s.submitted ++ [⟨msg, u.key i⟩]) := by
  cases e with
  | look i trustedSlot newSlot =>
      obtain ⟨-, h⟩ := Option.ite_none_right_eq_some.mp h
      obtain rfl := Option.some.inj h
      exact ⟨i, _, rfl, by split <;> exact nofun, .inl rfl⟩
  | opens i =>
      simp only [updateStep] at h
      split at h <;> cases h
      exact ⟨i, _, rfl, nofun, .inl rfl⟩
  | write i =>
      simp only [updateStep] at h
      split at h <;> cases h
      exact ⟨i, _, rfl, nofun, .inl rfl⟩
  | read i =>
      simp only [updateStep] at h
      split at h <;> cases h
      exact ⟨i, _, rfl, by cases s.file <;> exact nofun, .inl rfl⟩
  | sign i =>
      simp only [updateStep] at h
      split at h <;> cases h
      refine ⟨i, _, rfl, fun attempt msg hnext => ?_, .inl rfl⟩
      split at hnext
      · next hsigned =>
          obtain ⟨-, rfl⟩ := UpdatePc.signed.inj hnext
          exact hsigned
      · cases hnext
  | submit i early =>
      simp only [updateStep] at h
      split at h <;> cases h
      next attempt msg hsigned =>
        exact ⟨i, _, rfl, by split <;> exact nofun, .inr ⟨attempt, msg, hsigned, rfl⟩⟩
  | fail i =>
      simp only [updateStep] at h
      split at h <;> cases h
      · exact ⟨i, _, rfl, nofun, .inl rfl⟩
      · exact ⟨i, _, rfl, nofun, .inl rfl⟩

end Step

/-! ## Transactions that declare their signer -/

section Consistent

variable {ι : Type} [DecidableEq ι] (u : Updaters ι) (signs : List Char → UpdateMsg → Bool)

/-- `tx sign` rejects a transaction whose declared signer does not match the signing key. -/
def RefusesOthers : Prop := ∀ key msg, msg.signer ≠ u.address key → signs key msg = false

omit [DecidableEq ι] in
variable {u signs} in
theorem RefusesOthers.signer_eq (h : RefusesOthers u signs) {key : List Char} {msg : UpdateMsg}
    (hsigned : signs key msg = true) : msg.signer = u.address key := by
  by_contra hother
  rw [h key msg hother] at hsigned
  cases hsigned

/-- Every transaction declares the address of the key that signed it. -/
def SelfConsistent (s : UpdateState ι) : Prop :=
  ∀ tx ∈ s.submitted, tx.msg.signer = u.address tx.key

/-- And so will those that are signed and not yet broadcast. -/
structure SignedOwn (s : UpdateState ι) : Prop where
  signed : ∀ i attempt msg, s.pc i = .signed attempt msg → msg.signer = u.signerAddr i
  submitted : SelfConsistent u s

variable {u signs} {s t : UpdateState ι} {e : UpdateEvent ι}

theorem SignedOwn.step (hrefuses : RefusesOthers u signs) (hs : SignedOwn u s)
    (hstep : updateStep u signs s e = some t) : SignedOwn u t := by
  obtain ⟨i, next, hpc, hnext, hsubmitted⟩ := updateStep_cases hstep
  constructor
  · intro j attempt msg hj
    rw [hpc] at hj
    rcases of_update (Q := fun p : UpdatePc => p = .signed attempt msg) hj with ⟨rfl, hmoved⟩ | ⟨-, hbefore⟩
    · exact hrefuses.signer_eq (hnext attempt msg hmoved)
    · exact hs.signed j attempt msg hbefore
  · intro tx htx
    rcases hsubmitted with hsame | ⟨attempt, msg, hsigned, hadded⟩
    · rw [hsame] at htx
      exact hs.submitted tx htx
    · rw [hadded] at htx
      rcases List.mem_append.mp htx with hbefore | hnew
      · exact hs.submitted tx hbefore
      · obtain rfl := List.mem_singleton.mp hnew
        exact hs.signed i attempt msg hsigned

omit [DecidableEq ι] in
theorem signedOwn_start : SignedOwn u updateStart where
  signed := fun _ _ _ h => nomatch h
  submitted := fun _ htx => absurd htx List.not_mem_nil

/-- What the shared file costs: a process that has read another's message ends, and has submitted nothing
of it. -/
theorem lost_of_overwritten (hrefuses : RefusesOthers u signs) {i : ι} {attempt : ℕ} {msg : UpdateMsg}
    (hread : s.pc i = .read attempt msg) (hother : msg.signer ≠ u.signerAddr i) :
    updateStep u signs s (.sign i) = some (s.to i .done) := by
  simp only [updateStep, hread, hrefuses (u.key i) msg hother, Bool.false_eq_true, if_false]

end Consistent

/-- **Concurrent updates are self-consistent** in every state of every run: any number of processes, in any
interleaving, with any retries. A process may read another's message; `tx sign` then refuses it. -/
theorem updates_consistent {ι : Type} [DecidableEq ι] (u : Updaters ι)
    (signs : List Char → UpdateMsg → Bool) (hrefuses : RefusesOthers u signs) (evs : List (UpdateEvent ι))
    (s : UpdateState ι) (hrun : run (updateStep u signs) updateStart evs = some s) :
    ∀ t ∈ trail (updateStep u signs) updateStart evs, SelfConsistent u t := by
  intro t ht
  obtain ⟨bs, cs, -, hbs, -⟩ := (mem_trail_iff hrun).mp ht
  exact (run_invariant (I := SignedOwn u) (fun _ _ _ hv hstep => hv.step hrefuses hstep)
    signedOwn_start hbs).submitted

/-- Two workers of the pool, for one client. -/
def twoUpdaters : Updaters Bool where
  key := fun i => if i then ['b'] else ['a']
  clientId := fun _ => "08-wasm-1".toList
  address := fun key => "cosmos1".toList ++ key

/-- `tx sign` for their keys. -/
def signsOwn (key : List Char) (msg : UpdateMsg) : Bool := msg.signer = "cosmos1".toList ++ key

/-- Both write before either is read: the first reads what the second wrote, is refused and ends; the second
is early once. -/
def overwritten : List (UpdateEvent Bool) :=
  [.look false 10 20, .look true 10 20, .opens false, .write false, .opens true, .write true,
    .read false, .sign false, .read true, .sign true, .submit true true, .read true, .sign true,
    .submit true false]

theorem updates_consistent_overwritten :
    ∃ s, run (updateStep twoUpdaters signsOwn) updateStart overwritten = some s ∧
      s.submitted.length = 2 ∧ SelfConsistent twoUpdaters s := by
  have hrun : ∃ s, run (updateStep twoUpdaters signsOwn) updateStart overwritten = some s ∧
      s.submitted.length = 2 := ⟨_, rfl, rfl⟩
  obtain ⟨s, hs, hlength⟩ := hrun
  refine ⟨s, hs, hlength, updates_consistent twoUpdaters signsOwn ?_ overwritten s hs s ?_⟩
  · intro key msg hother
    exact decide_eq_false hother
  · exact (mem_trail_iff hs).mpr ⟨overwritten, [], (List.append_nil _).symm, hs, rfl⟩

end PqcMigration.Devnet
