/-
# PqcMigration.Lib.Utf8 — UTF-8 with replacement, as runtimes decode it.

`decode` is the decoder of the WHATWG Encoding Standard (what Node's `Buffer.toString()` does): a
byte that cannot continue the current character ends it as U+FFFD and is looked at again as a first
byte. It is total, so a program that decodes without checking never fails here; it may only get a
string nobody encoded. `encode` is the encoding of a valid string, through core's
`String.utf8EncodeChar`. The result is `decode_encode`: on the encoding of a string the decoder is
exact, hence `encode_injective`.
-/
import PqcMigration.Lib.Bytes

namespace PqcMigration.Lib.Utf8

/-! ## Encoding and decoding -/

/-- The UTF-8 bytes of a string. -/
def encode (s : String) : Bytes := s.toList.flatMap String.utf8EncodeChar

/-- Between two bytes: how many are still needed, the bits collected, and the range the next byte
has to lie in. `need = 0` is the state between characters. -/
structure Pending where
  need : ℕ
  codePoint : ℕ
  lower : ℕ
  upper : ℕ

/-- Between characters. -/
def idle : Pending := ⟨0, 0, 0x80, 0xBF⟩

/-- U+FFFD. -/
def replacement : Char := Char.ofNat 0xFFFD

/-- A byte between characters: what it emits, and the state after it. -/
def first (b : ℕ) : List Char × Pending :=
  if b ≤ 0x7F then ([Char.ofNat b], idle)
  else if 0xC2 ≤ b ∧ b ≤ 0xDF then ([], ⟨1, b % 0x20, 0x80, 0xBF⟩)
  else if 0xE0 ≤ b ∧ b ≤ 0xEF then
    ([], ⟨2, b % 0x10, if b = 0xE0 then 0xA0 else 0x80, if b = 0xED then 0x9F else 0xBF⟩)
  else if 0xF0 ≤ b ∧ b ≤ 0xF4 then
    ([], ⟨3, b % 0x08, if b = 0xF0 then 0x90 else 0x80, if b = 0xF4 then 0x8F else 0xBF⟩)
  else ([replacement], idle)

/-- One byte. -/
def next (st : Pending) (b : ℕ) : List Char × Pending :=
  if st.need = 0 then first b
  else if st.lower ≤ b ∧ b ≤ st.upper then
    if st.need = 1 then ([Char.ofNat (st.codePoint * 64 + b % 64)], idle)
    else ([], ⟨st.need - 1, st.codePoint * 64 + b % 64, 0x80, 0xBF⟩)
  else
    -- the character ends here as U+FFFD, and the byte is read again as a first one
    (replacement :: (first b).1, (first b).2)

/-- The decoder from a given state; bytes still needed at the end give one U+FFFD. -/
def decodeFrom (st : Pending) : Bytes → List Char
  | [] => if st.need = 0 then [] else [replacement]
  | b :: bs => (next st b.toNat).1 ++ decodeFrom (next st b.toNat).2 bs

/-- Decode a whole byte string. -/
def decode (bs : Bytes) : String := String.ofList (decodeFrom idle bs)

/-! ## The decoder is exact on encodings -/

theorem toNat_ofNat_of_lt {n : ℕ} (hn : n < 256) : (UInt8.ofNat n).toNat = n := by
  rw [UInt8.toNat_ofNat']
  exact Nat.mod_eq_of_lt hn

/-- A code point is not a surrogate and at most U+10FFFF. -/
theorem toNat_char_cases (c : Char) :
    c.val.toNat < 0xD800 ∨ (0xDFFF < c.val.toNat ∧ c.val.toNat < 0x110000) := c.valid

theorem ofNat_val (c : Char) : Char.ofNat c.val.toNat = c := Char.ofNat_toNat c

/-- A continuation byte in range that completes the character. -/
theorem decodeFrom_last {cp lo hi v : ℕ} {rest : Bytes} (hlo : lo ≤ v) (hhi : v ≤ hi)
    (hv : v < 256) :
    decodeFrom ⟨1, cp, lo, hi⟩ (UInt8.ofNat v :: rest) =
      Char.ofNat (cp * 64 + v % 64) :: decodeFrom idle rest := by
  rw [decodeFrom, toNat_ofNat_of_lt hv]
  simp [next, hlo, hhi]

/-- A continuation byte in range with more to come. -/
theorem decodeFrom_mid {n cp lo hi v : ℕ} {rest : Bytes} (hlo : lo ≤ v) (hhi : v ≤ hi)
    (hv : v < 256) :
    decodeFrom ⟨n + 2, cp, lo, hi⟩ (UInt8.ofNat v :: rest) =
      decodeFrom ⟨n + 1, cp * 64 + v % 64, 0x80, 0xBF⟩ rest := by
  rw [decodeFrom, toNat_ofNat_of_lt hv]
  simp [next, hlo, hhi]

/-- A first byte that emits nothing. -/
theorem decodeFrom_first {v : ℕ} {st : Pending} {rest : Bytes} (hv : v < 256)
    (hfirst : first v = ([], st)) :
    decodeFrom idle (UInt8.ofNat v :: rest) = decodeFrom st rest := by
  rw [decodeFrom, toNat_ofNat_of_lt hv]
  simp [next, idle, hfirst]

/-- **One character.** Decoding the encoding of `c` yields `c` and leaves the decoder idle. The
split is by the four lengths of an encoding; the arithmetic in each is that the groups of six bits
reassemble to the code point. -/
theorem decodeFrom_encodeChar (c : Char) (rest : Bytes) :
    decodeFrom idle (String.utf8EncodeChar c ++ rest) = c :: decodeFrom idle rest := by
  have hvalid := toNat_char_cases c
  unfold String.utf8EncodeChar
  simp only
  generalize hv : c.val.toNat = v at hvalid
  have hc : Char.ofNat v = c := hv ▸ ofNat_val c
  split
  · -- one byte
    rename_i h1
    rw [List.singleton_append, decodeFrom, toNat_ofNat_of_lt (by omega)]
    simp [next, idle, first, h1, hc]
  split
  · -- two bytes
    rename_i h1 h2
    have hfirst : first (v / 64 % 0x20 + 0xC0) = ([], ⟨1, v / 64, 0x80, 0xBF⟩) := by
      rw [first, if_neg (by omega), if_pos (by omega)]
      congr 2
      omega
    rw [List.cons_append, List.cons_append, List.nil_append, decodeFrom_first (by omega) hfirst,
      decodeFrom_last (by omega) (by omega) (by omega)]
    rw [show v / 64 * 64 + (v % 0x40 + 0x80) % 64 = v by omega, hc]
  split
  · -- three bytes
    rename_i h1 h2 h3
    have hfirst : first (v / 4096 % 0x10 + 0xE0) =
        ([], ⟨2, v / 4096, if v / 4096 = 0 then 0xA0 else 0x80,
          if v / 4096 = 0xD then 0x9F else 0xBF⟩) := by
      rw [first, if_neg (by omega), if_neg (by omega), if_pos (by omega)]
      congr 2
      · omega
      · exact if_congr (by omega) rfl rfl
      · exact if_congr (by omega) rfl rfl
    have hlo : (if v / 4096 = 0 then 0xA0 else 0x80) ≤ v / 64 % 0x40 + 0x80 := by
      split <;> omega
    have hhi : v / 64 % 0x40 + 0x80 ≤ (if v / 4096 = 0xD then 0x9F else 0xBF) := by
      split <;> omega
    rw [List.cons_append, List.cons_append, List.cons_append, List.nil_append,
      decodeFrom_first (by omega) hfirst, decodeFrom_mid hlo hhi (by omega),
      decodeFrom_last (by omega) (by omega) (by omega)]
    rw [show (v / 4096 * 64 + (v / 64 % 0x40 + 0x80) % 64) * 64 + (v % 0x40 + 0x80) % 64 = v by
      omega, hc]
  · -- four bytes
    rename_i h1 h2 h3
    have hfirst : first (v / 262144 % 0x08 + 0xF0) =
        ([], ⟨3, v / 262144, if v / 262144 = 0 then 0x90 else 0x80,
          if v / 262144 = 4 then 0x8F else 0xBF⟩) := by
      rw [first, if_neg (by omega), if_neg (by omega), if_neg (by omega), if_pos (by omega)]
      congr 2
      · omega
      · exact if_congr (by omega) rfl rfl
      · exact if_congr (by omega) rfl rfl
    have hlo : (if v / 262144 = 0 then 0x90 else 0x80) ≤ v / 4096 % 0x40 + 0x80 := by
      split <;> omega
    have hhi : v / 4096 % 0x40 + 0x80 ≤ (if v / 262144 = 4 then 0x8F else 0xBF) := by
      split <;> omega
    rw [List.cons_append, List.cons_append, List.cons_append, List.cons_append, List.nil_append,
      decodeFrom_first (by omega) hfirst, decodeFrom_mid hlo hhi (by omega),
      decodeFrom_mid (by omega) (by omega) (by omega),
      decodeFrom_last (by omega) (by omega) (by omega)]
    rw [show ((v / 262144 * 64 + (v / 4096 % 0x40 + 0x80) % 64) * 64 +
      (v / 64 % 0x40 + 0x80) % 64) * 64 + (v % 0x40 + 0x80) % 64 = v by omega, hc]

theorem decodeFrom_encodeChars (cs : List Char) :
    decodeFrom idle (cs.flatMap String.utf8EncodeChar) = cs := by
  induction cs with
  | nil => rfl
  | cons c cs ih => rw [List.flatMap_cons, decodeFrom_encodeChar, ih]

/-- **Exact on encodings.** -/
@[simp] theorem decode_encode (s : String) : decode (encode s) = s := by
  unfold decode encode
  rw [decodeFrom_encodeChars, String.ofList_toList]

theorem encode_injective {s t : String} (h : encode s = encode t) : s = t := by
  rw [← decode_encode s, h, decode_encode]

/-! ## An ASCII byte ends whatever came before it -/

/-- Between characters, or the next byte cannot be an ASCII one. -/
def NoAscii (st : Pending) : Prop := st.need = 0 ∨ 0x80 ≤ st.lower

theorem noAscii_first (b : ℕ) : NoAscii (first b).2 := by
  unfold first NoAscii
  split_ifs <;> simp [idle]

theorem noAscii_next (st : Pending) (b : ℕ) : NoAscii (next st b).2 := by
  unfold next
  split_ifs
  · exact noAscii_first b
  · exact Or.inl rfl
  · exact Or.inr (Nat.le_refl _)
  · exact noAscii_first b

/-- **ASCII is never swallowed**: after any bytes, it comes out as itself, and the decoder is idle. -/
theorem decodeFrom_ascii {st : Pending} (hst : NoAscii st) {b : UInt8} (hb : b.toNat ≤ 0x7F)
    (bs rest : Bytes) :
    ∃ t, decodeFrom st (bs ++ b :: rest) = t ++ Char.ofNat b.toNat :: decodeFrom idle rest := by
  induction bs generalizing st with
  | nil =>
      have hfirst : first b.toNat = ([Char.ofNat b.toNat], idle) := if_pos hb
      rw [List.nil_append, decodeFrom, next]
      rcases hst with hneed | hlower
      · rw [if_pos hneed, hfirst]
        exact ⟨[], rfl⟩
      · by_cases hneed : st.need = 0
        · rw [if_pos hneed, hfirst]
          exact ⟨[], rfl⟩
        · rw [if_neg hneed, if_neg (by omega), hfirst]
          exact ⟨[replacement], rfl⟩
  | cons c bs ih =>
      obtain ⟨t, ht⟩ := ih (noAscii_next st c.toNat)
      rw [List.cons_append, decodeFrom, ht]
      exact ⟨(next st c.toNat).1 ++ t, by rw [List.append_assoc]⟩

end PqcMigration.Lib.Utf8
