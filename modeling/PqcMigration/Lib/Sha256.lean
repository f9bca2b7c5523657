/-
# PqcMigration.Lib.Sha256 — SHA-256, executable.

The hash function of FIPS 180-4 on byte strings. Nothing here is proved about its strength: results
about hashing take the hash function as a parameter and exhibit collisions explicitly. This is the
function at which a concrete run is evaluated, by the kernel; hence words are naturals below 2^32
under the `Nat` functions it computes with, and runs of words are written as one number.
-/
import PqcMigration.Lib.Bytes

namespace PqcMigration.Lib.Sha256

/-! ## Words -/

/-- The low 32 bits. -/
def low32 (n : ℕ) : ℕ := n.mod 0x100000000

/-- A word written twice: its rotation right by `n` is the low word after a shift by `n`. -/
def twice (x : ℕ) : ℕ := x.mul 0x100000001

def ch (x y z : ℕ) : ℕ := (x.land y).xor ((x.xor 0xffffffff).land z)

def maj (x y z : ℕ) : ℕ := ((x.land y).xor (x.land z)).xor (y.land z)

/-- The rotations by `i`, `j` and `k`, summed. -/
def rotations (i j k x : ℕ) : ℕ :=
  low32 ((((twice x).shiftRight i).xor ((twice x).shiftRight j)).xor ((twice x).shiftRight k))

/-- The rotations by `i` and `j` and the shift by `k`, summed. -/
def rotationsShift (i j k x : ℕ) : ℕ :=
  (low32 (((twice x).shiftRight i).xor ((twice x).shiftRight j))).xor (x.shiftRight k)

def upperSigma0 : ℕ → ℕ := rotations 2 13 22

def upperSigma1 : ℕ → ℕ := rotations 6 11 25

def lowerSigma0 : ℕ → ℕ := rotationsShift 7 18 3

def lowerSigma1 : ℕ → ℕ := rotationsShift 17 19 10

/-! ## Compression -/

/-- The 64 round constants. -/
def roundConstants : List ℕ :=
  [0x428a2f98, 0x71374491, 0xb5c0fbcf, 0xe9b5dba5, 0x3956c25b, 0x59f111f1, 0x923f82a4, 0xab1c5ed5,
    0xd807aa98, 0x12835b01, 0x243185be, 0x550c7dc3, 0x72be5d74, 0x80deb1fe, 0x9bdc06a7, 0xc19bf174,
    0xe49b69c1, 0xefbe4786, 0x0fc19dc6, 0x240ca1cc, 0x2de92c6f, 0x4a7484aa, 0x5cb0a9dc, 0x76f988da,
    0x983e5152, 0xa831c66d, 0xb00327c8, 0xbf597fc7, 0xc6e00bf3, 0xd5a79147, 0x06ca6351, 0x14292967,
    0x27b70a85, 0x2e1b2138, 0x4d2c6dfc, 0x53380d13, 0x650a7354, 0x766a0abb, 0x81c2c92e, 0x92722c85,
    0xa2bfe8a1, 0xa81a664b, 0xc24b8b70, 0xc76c51a3, 0xd192e819, 0xd6990624, 0xf40e3585, 0x106aa070,
    0x19a4c116, 0x1e376c08, 0x2748774c, 0x34b0bcb5, 0x391c0cb3, 0x4ed8aa4a, 0x5b9cca4f, 0x682e6ff3,
    0x748f82ee, 0x78a5636f, 0x84c87814, 0x8cc70208, 0x90befffa, 0xa4506ceb, 0xbef9a3f7, 0xc67178f2]

/-- The eight working registers. -/
structure Regs where
  (a b c d e f g h : ℕ)

/-- The initial hash value. -/
def Regs.init : Regs :=
  ⟨0x6a09e667, 0xbb67ae85, 0x3c6ef372, 0xa54ff53a, 0x510e527f, 0x9b05688c, 0x1f83d9ab, 0x5be0cd19⟩

def Regs.add (r s : Regs) : Regs :=
  ⟨low32 (r.a.add s.a), low32 (r.b.add s.b), low32 (r.c.add s.c), low32 (r.d.add s.d),
    low32 (r.e.add s.e), low32 (r.f.add s.f), low32 (r.g.add s.g), low32 (r.h.add s.h)⟩

def round (r : Regs) (k w : ℕ) : Regs :=
  let t1 := (((r.h.add (upperSigma1 r.e)).add (ch r.e r.f r.g)).add k).add w
  let t2 := (upperSigma0 r.a).add (maj r.a r.b r.c)
  ⟨low32 (t1.add t2), r.a, r.b, r.c, low32 (r.d.add t1), r.e, r.f, r.g⟩

/-- Word `i` of a run of words written as one number, counted from its low end. -/
def word (ws i : ℕ) : ℕ := low32 (ws.shiftRight (Nat.mul 32 i))

/-- The next word of the message schedule; the newest word is the lowest. -/
def nextWord (ws : ℕ) : ℕ :=
  low32 ((((lowerSigma1 (word ws 1)).add (word ws 6)).add (lowerSigma0 (word ws 14))).add
    (word ws 15))

/-- Extend the message schedule by `n` words. -/
def schedule : ℕ → ℕ → ℕ
  | 0, ws => ws
  | n + 1, ws => schedule n ((ws.shiftLeft 32).add (nextWord ws))

/-- One round per constant, each with its word of the schedule. -/
def rounds (ws : ℕ) : List ℕ → Regs → Regs
  | [], r => r
  | k :: ks, r => rounds ws ks (round r k (word ws ks.length))

/-- Compress one block of 64 bytes, written as a number. -/
def compress (r : Regs) (block : ℕ) : Regs := r.add (rounds (schedule 48 block) roundConstants r)

/-! ## Messages -/

/-- A one bit, zeros, and the length in bits, up to a multiple of 64 bytes. -/
def pad (bs : Bytes) : Bytes :=
  bs ++ 0x80 :: (List.replicate ((119 - bs.length % 64) % 64) 0 ++ beBytes 8 (8 * bs.length))

/-- Compress the `n` low blocks of a message written as a number, from the high end. -/
def blocks (message : ℕ) : ℕ → Regs → Regs
  | 0, r => r
  | n + 1, r => blocks message n (compress r (message >>> (512 * n) % 2 ^ 512))

/-- The registers one after another, as a number. -/
def Regs.toNat (r : Regs) : ℕ :=
  [r.b, r.c, r.d, r.e, r.f, r.g, r.h].foldl (fun n w => n <<< 32 + w) r.a

def sha256 (bs : Bytes) : Bytes32 :=
  let padded := pad bs
  ⟨beBytes 32 (blocks (beNat padded) (padded.length / 64) .init).toNat, length_beBytes 32 _⟩

/-- The standard's own example, `"abc"`. -/
example : (sha256 [0x61, 0x62, 0x63]).1 =
    [0xba, 0x78, 0x16, 0xbf, 0x8f, 0x01, 0xcf, 0xea, 0x41, 0x41, 0x40, 0xde, 0x5d, 0xae, 0x22, 0x23,
      0xb0, 0x03, 0x61, 0xa3, 0x96, 0x17, 0x7a, 0x9c, 0xb4, 0x10, 0xff, 0x61, 0xf2, 0x00, 0x15,
      0xad] := by
  decide +kernel

end PqcMigration.Lib.Sha256
