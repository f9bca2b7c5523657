/-
# PqcMigration.Lib.Hex — hexadecimal text.

`toHex` writes bytes the way every runtime here does (two lower-case digits each). `HexOf cs bs`
says that the characters `cs`, in any mixture of cases, are a hexadecimal writing of `bs`; a parser
of hexadecimal text is judged against it.
-/
import PqcMigration.Lib.Bytes

namespace PqcMigration.Lib.Hex

/-! ## Digits -/

/-- The value of a hexadecimal digit, of either case. -/
def digitVal (c : Char) : Option ℕ :=
  let n := c.toNat
  if 48 ≤ n ∧ n ≤ 57 then some (n - 48)
  else if 97 ≤ n ∧ n ≤ 102 then some (n - 87)
  else if 65 ≤ n ∧ n ≤ 70 then some (n - 55)
  else none

/-- The lower-case digit of a value below 16. -/
def digit (n : ℕ) : Char := Char.ofNat (if n < 10 then 48 + n else 87 + n)

theorem digitVal_digit {n : ℕ} (hn : n < 16) : digitVal (digit n) = some n := by
  have hall : ∀ k : Fin 16, digitVal (digit k) = some k.val := by decide
  exact hall ⟨n, hn⟩

/-! ## Byte strings -/

/-- Two digits, high nibble first. -/
def byteToHex (b : UInt8) : List Char := [digit (b.toNat / 16), digit (b.toNat % 16)]

def toHex (bs : Bytes) : List Char := bs.flatMap byteToHex

/-- `cs` is a hexadecimal writing of `bs`. -/
inductive HexOf : List Char → Bytes → Prop
  | nil : HexOf [] []
  | cons {a b : Char} {x y : ℕ} {cs : List Char} {bs : Bytes} :
      digitVal a = some x → digitVal b = some y → HexOf cs bs →
      HexOf (a :: b :: cs) (UInt8.ofNat (16 * x + y) :: bs)

theorem hexOf_toHex (bs : Bytes) : HexOf (toHex bs) bs := by
  induction bs with
  | nil => exact HexOf.nil
  | cons b bs ih =>
      have hb : b.toNat < 256 := b.toNat_lt
      have hsplit : UInt8.ofNat (16 * (b.toNat / 16) + b.toNat % 16) = b := by
        rw [Nat.div_add_mod]
        exact UInt8.ofNat_toNat
      have hcons := HexOf.cons (digitVal_digit (n := b.toNat / 16) (by omega))
        (digitVal_digit (n := b.toNat % 16) (by omega)) ih
      rwa [hsplit] at hcons

/-- Read pairs of digits until one is not hexadecimal (or a single digit is left). -/
def parse : List Char → Bytes
  | a :: b :: cs =>
      match digitVal a, digitVal b with
      | some x, some y => UInt8.ofNat (16 * x + y) :: parse cs
      | _, _ => []
  | _ => []

theorem parse_of_hexOf {cs : List Char} {bs : Bytes} (h : HexOf cs bs) : parse cs = bs := by
  induction h with
  | nil => rfl
  | cons ha hb _ ih => simp [parse, ha, hb, ih]

end PqcMigration.Lib.Hex
