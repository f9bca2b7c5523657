/-
# PqcMigration.Lib.Wire — the protobuf wire format, as a grammar.

What a protobuf message may look like on the wire, and what a reader of it is told, without any
particular schema or decoder: base-128 varints (over-long ones included), the four wire types in
use (0 varint, 1 fixed64, 2 length-delimited, 5 fixed32), and messages as sequences of fields in any
order. `IsMessage fs bs` relates the bytes to the fields; every decoder is judged against it.

The schema-level rules are the views at the end: a scalar field is the LAST occurrence with the
right wire type, a repeated field is all of them in order, and whatever is not asked for (unknown
numbers, or a known number with another wire type) is not seen.
-/
import PqcMigration.Lib.Bytes

namespace PqcMigration.Lib.Wire

/-! ## The grammar -/

/-- `bs` is a base-128 writing of `v`: seven bits a byte, least significant group first, the high
bit set on every byte but the last. Nothing forces the shortest writing. -/
inductive IsVarint : ℕ → Bytes → Prop
  | last {b : UInt8} : b.toNat < 0x80 → IsVarint b.toNat [b]
  | more {b : UInt8} {v : ℕ} {bs : Bytes} :
      0x80 ≤ b.toNat → IsVarint v bs → IsVarint (b.toNat % 0x80 + 0x80 * v) (b :: bs)

/-- What a field carries, by wire type. -/
inductive Value where
  | varint (v : ℕ)
  | fixed64 (bs : Bytes)
  | len (bs : Bytes)
  | fixed32 (bs : Bytes)

structure Field where
  num : ℕ
  val : Value

def Value.wireType : Value → ℕ
  | .varint _ => 0
  | .fixed64 _ => 1
  | .len _ => 2
  | .fixed32 _ => 5

/-- The bytes after the tag. -/
inductive IsValue : Value → Bytes → Prop
  | varint {v : ℕ} {bs : Bytes} : IsVarint v bs → IsValue (.varint v) bs
  | fixed64 {bs : Bytes} : bs.length = 8 → IsValue (.fixed64 bs) bs
  | len {bs n : Bytes} : IsVarint bs.length n → IsValue (.len bs) (n ++ bs)
  | fixed32 {bs : Bytes} : bs.length = 4 → IsValue (.fixed32 bs) bs

/-- A tag and a value; field numbers are `1 .. 2^29 - 1`. -/
inductive IsField : Field → Bytes → Prop
  | mk {f : Field} {tag bs : Bytes} :
      1 ≤ f.num → f.num < 2 ^ 29 → IsVarint (f.num * 8 + f.val.wireType) tag →
      IsValue f.val bs → IsField f (tag ++ bs)

/-- A message: fields one after another. -/
inductive IsMessage : List Field → Bytes → Prop
  | nil : IsMessage [] []
  | cons {f : Field} {fs : List Field} {bs rest : Bytes} :
      IsField f bs → IsMessage fs rest → IsMessage (f :: fs) (bs ++ rest)

theorem IsVarint.ne_nil {v : ℕ} {bs : Bytes} (h : IsVarint v bs) : bs ≠ [] := by
  cases h <;> simp

/-- A single byte is its own varint. -/
theorem isVarint_byte {n : ℕ} (hn : n < 0x80) : IsVarint n [UInt8.ofNat n] := by
  have hto : (UInt8.ofNat n).toNat = n := by
    rw [UInt8.toNat_ofNat']
    omega
  have hlast := IsVarint.last (b := UInt8.ofNat n) (by omega)
  rwa [hto] at hlast

/-- A field whose tag fits one byte. -/
theorem isField_short {f : Field} {bs : Bytes} (hnum : 1 ≤ f.num)
    (htag : f.num * 8 + f.val.wireType < 0x80) (hval : IsValue f.val bs) :
    IsField f (UInt8.ofNat (f.num * 8 + f.val.wireType) :: bs) :=
  .mk hnum (by omega) (isVarint_byte htag) hval

/-- Length-delimited bytes whose length fits one byte. -/
theorem isValue_len_short {bs : Bytes} (h : bs.length < 0x80) :
    IsValue (.len bs) (UInt8.ofNat bs.length :: bs) :=
  .len (isVarint_byte h)

/-! ## What a schema reads -/

/-- The varint of a field with number `n`. -/
def Field.varint? (n : ℕ) (f : Field) : Option ℕ :=
  match f.val with
  | .varint v => if f.num = n then some v else none
  | _ => none

/-- The bytes of a length-delimited field with number `n`. -/
def Field.len? (n : ℕ) (f : Field) : Option Bytes :=
  match f.val with
  | .len bs => if f.num = n then some bs else none
  | _ => none

/-- A scalar varint field: the last occurrence, `d` when there is none. -/
def lastVarint (n d : ℕ) (fs : List Field) : ℕ := (fs.filterMap (Field.varint? n)).getLastD d

/-- A scalar string or bytes field: the last occurrence, `d` when there is none. -/
def lastLen (n : ℕ) (d : Bytes) (fs : List Field) : Bytes :=
  (fs.filterMap (Field.len? n)).getLastD d

/-- A repeated length-delimited field: every occurrence, in order. -/
def allLen (n : ℕ) (fs : List Field) : List Bytes := fs.filterMap (Field.len? n)

theorem lastVarint_cons (n d : ℕ) (f : Field) (fs : List Field) :
    lastVarint n d (f :: fs) = lastVarint n ((f.varint? n).getD d) fs := by
  unfold lastVarint
  cases h : f.varint? n with
  | none => rw [List.filterMap_cons_none h]; rfl
  | some v => rw [List.filterMap_cons_some h, List.getLastD_cons]; rfl

theorem lastLen_cons (n : ℕ) (d : Bytes) (f : Field) (fs : List Field) :
    lastLen n d (f :: fs) = lastLen n ((f.len? n).getD d) fs := by
  unfold lastLen
  cases h : f.len? n with
  | none => rw [List.filterMap_cons_none h]; rfl
  | some v => rw [List.filterMap_cons_some h, List.getLastD_cons]; rfl

theorem allLen_cons (n : ℕ) (f : Field) (fs : List Field) :
    allLen n (f :: fs) = (f.len? n).toList ++ allLen n fs := by
  unfold allLen
  cases h : f.len? n with
  | none => rw [List.filterMap_cons_none h]; rfl
  | some v => rw [List.filterMap_cons_some h]; rfl

/-! ## Decoders as folds

A decoder that folds over the fields computes a view when each STEP treats the field as the view's
rule says; the three rules below are all a message decoder has to be checked against. -/

section Fold

variable {σ τ : Type*} {step : σ → Field → σ}

/-- A component overwritten by the varint fields numbered `n`, and by nothing else. -/
theorem foldl_lastVarint (g : σ → ℕ) (n : ℕ)
    (hstep : ∀ s f, g (step s f) = (f.varint? n).getD (g s)) (fs : List Field) (s : σ) :
    g (fs.foldl step s) = lastVarint n (g s) fs := by
  induction fs generalizing s with
  | nil => rfl
  | cons f fs ih => rw [List.foldl_cons, ih, hstep, lastVarint_cons]

/-- A component overwritten by (the decoding of) the length-delimited fields numbered `n`, and by
nothing else. -/
theorem foldl_lastLen (g : σ → τ) (dec : Bytes → τ) (n : ℕ)
    (hstep : ∀ s f, g (step s f) = ((f.len? n).map dec).getD (g s)) (fs : List Field) (s : σ)
    {d : Bytes} (hd : g s = dec d) :
    g (fs.foldl step s) = dec (lastLen n d fs) := by
  induction fs generalizing s d with
  | nil => exact hd
  | cons f fs ih =>
      rw [List.foldl_cons, lastLen_cons]
      apply ih
      rw [hstep, hd]
      cases f.len? n <;> rfl

/-- A component extended by (what `dec` makes of) the length-delimited fields numbered `n`. -/
theorem foldl_allLen (g : σ → List τ) (dec : Bytes → Option τ) (n : ℕ)
    (hstep : ∀ s f, g (step s f) = g s ++ ((f.len? n).bind dec).toList) (fs : List Field) (s : σ) :
    g (fs.foldl step s) = g s ++ (allLen n fs).filterMap dec := by
  induction fs generalizing s with
  | nil => simp [allLen]
  | cons f fs ih =>
      rw [List.foldl_cons, ih, hstep, allLen_cons, List.filterMap_append, List.append_assoc]
      cases f.len? n with
      | none => rfl
      | some bs => cases h : dec bs <;> simp [h]

end Fold

end PqcMigration.Lib.Wire
