/-
# PqcMigration.LightClient.PubkeysHash — `devnet/light-client/pubkeys_hash.py`.

The script's functions, with the hash function as a parameter. A Python computation here may raise,
and it carries the messages it hashed: `PyM` is `Hashed` with exceptions on top.
-/
import PqcMigration.Lib.Hashed
import PqcMigration.Lib.Hex

namespace PqcMigration.LightClient

open Lib

/-! ## Python -/

/-- The exceptions the scripts can raise. -/
inductive PyError where
  | indexError
  | valueError
  | assertionError (msg : String)
  deriving DecidableEq

/-- A Python computation: exceptions, and a record of what was hashed. -/
abbrev PyM (α : Type) := ExceptT PyError (Hashed Bytes) α

/-- A value, or an exception, that took no hashing. -/
def liftExcept {α : Type} (e : Except PyError α) : PyM α := ExceptT.mk (pure e)

/-- A computation that only hashes. -/
def liftHashed {α : Type} (x : Hashed Bytes α) : PyM α := ExceptT.mk ⟨.ok x.val, x.inputs⟩

theorem run_bind_of_ok {α β : Type} {x : PyM α} {f : α → PyM β} {a : α}
    (hx : x.run.val = .ok a) :
    (x >>= f).run = ⟨(f a).run.val, x.run.inputs ++ (f a).run.inputs⟩ := by
  rw [ExceptT.run_bind]
  apply Hashed.ext
  · simp only [val_bind, hx]
  · simp only [inputs_bind, hx]

/-- Peeling one step off a computation that did not raise; `s` collects what was hashed. -/
theorem bind_eq_ok {α β : Type} {x : PyM α} {f : α → PyM β} {b : β} {s : List Bytes}
    (h : (x >>= f).run.val = .ok b) (hs : (x >>= f).run.inputs ⊆ s) :
    ∃ a, x.run.val = .ok a ∧ x.run.inputs ⊆ s ∧ (f a).run.val = .ok b ∧ (f a).run.inputs ⊆ s := by
  rw [ExceptT.run_bind] at h hs
  cases hx : x.run.val with
  | error err => simp [hx] at h
  | ok a =>
      simp only [val_bind, inputs_bind, hx] at h hs
      rcases List.append_subset.mp hs with ⟨hxs, hfs⟩
      exact ⟨a, rfl, hxs, h, hfs⟩

/-- ASCII whitespace: space, and tab to carriage return. -/
def isSpace (c : Char) : Bool := c.toNat == 32 || (9 ≤ c.toNat && c.toNat ≤ 13)

/-- `bytes.fromhex`: pairs of digits of either case, ASCII whitespace skipped between pairs. -/
def fromhex : List Char → Except PyError Bytes
  | [] => .ok []
  | [c] => if isSpace c then .ok [] else .error .valueError
  | c :: c' :: cs =>
      if isSpace c then fromhex (c' :: cs)
      else
        match Hex.digitVal c, Hex.digitVal c' with
        | some x, some y => (UInt8.ofNat (16 * x + y) :: ·) <$> fromhex cs
        | _, _ => .error .valueError

/-! ## The script -/

variable (H : Bytes → Bytes32)

def sha256 (b : Bytes) : PyM Bytes := liftHashed (digest H b)

/-- `[sha256(layer[i] + layer[i + 1]) for i in range(0, len(layer), 2)]`: half as many. -/
def hashLayer : (layer : List Bytes) → PyM { hs : List Bytes // 2 * hs.length = layer.length }
  | [] => pure ⟨[], rfl⟩
  | [_] => throw .indexError
  | a :: b :: rest => do
      let h ← sha256 H (a ++ b)
      let hs ← hashLayer rest
      return ⟨h :: hs.1, by rw [List.length_cons, Nat.mul_succ, hs.2]; rfl⟩

/-- `while len(layer) > 1`, then `layer[0]`. -/
def hashLayers : List Bytes → PyM Bytes
  | [] => throw .indexError
  | [root] => pure root
  | a :: b :: rest => do
      let layer ← hashLayer H (a :: b :: rest)
      hashLayers layer.1
termination_by layer => layer.length
decreasing_by
  have hhalf := layer.2
  simp only [List.length_cons] at hhalf ⊢
  omega

/-- `while width < len(chunks): width *= 2`. -/
def growWidth (len width : ℕ) (hwidth : 0 < width) : ℕ :=
  if width < len then growWidth len (width * 2) (by omega) else width
termination_by len - width

def zeroChunk : Bytes := List.replicate 32 0

def merkleize (chunks : List Bytes) : PyM Bytes :=
  if chunks = [] then pure zeroChunk
  else
    let width := growWidth chunks.length 1 (by decide)
    hashLayers H (chunks ++ List.replicate (width - chunks.length) zeroChunk)

def pubkeyRoot (pk : Bytes) : PyM Bytes := do
  if pk.length ≠ 48 then
    throw (.assertionError ("expected 48-byte pubkey, got " ++ toString pk.length))
  let padded := pk ++ List.replicate (64 - 48) 0
  merkleize H [padded.take 32, (padded.drop 32).take 32]

/-- Two chunks are one hash. -/
theorem merkleize_pair (a b : Bytes) : merkleize H [a, b] = sha256 H (a ++ b) := by
  have hwidth : growWidth 2 1 (by decide) = 2 := by
    rw [growWidth, if_pos (by decide), growWidth, if_neg (by decide)]
  have hlayer : hashLayers H [a, b] = sha256 H (a ++ b) := by
    simp [hashLayers, hashLayer]
  simpa [merkleize, hwidth] using hlayer

end PqcMigration.LightClient
