/-
# PqcMigration.Lib.Register — checksums from a linear register.

A register is fed digit by digit: each digit is added to a linear image of what the register holds. So
two feeds superpose, and check digits can be computed after the fact: feed zeros in their place, and
take the digits that bring an EMPTY register to what is missing (`feed_check`). And a digit replaced
moves the result by a power of the linear map at the difference (`feed_set`), whatever else is fed.

Addition is any commutative, associative operation in which every element is its own inverse.
-/
import Mathlib.Logic.Function.Iterate
import Mathlib.Tactic.Common

namespace PqcMigration.Lib

variable {α : Type*} (op : α → α → α) (next : α → α)

/-- One digit. -/
def feedOne (s v : α) : α := op (next s) v

/-- Digits, one after another. -/
def feed (s : α) (vs : List α) : α := vs.foldl (feedOne op next) s

theorem feed_cons (s v : α) (vs : List α) :
    feed op next s (v :: vs) = feed op next (op (next s) v) vs := rfl

theorem feed_append (s : α) (us vs : List α) :
    feed op next s (us ++ vs) = feed op next (feed op next s us) vs := List.foldl_append

variable {op next} [Std.Associative op]

/-- An element added twice is gone. -/
theorem op_op_cancel {e : α} (he : ∀ a, op e a = a) (hself : ∀ a, op a a = e) (a b : α) :
    op a (op a b) = b := by
  calc op a (op a b)
      = op (op a a) b := (Std.Associative.assoc a a b).symm
    _ = b := by rw [hself, he]

variable [Std.Commutative op]

/-- Registers and digits added place by place. -/
theorem feed_superpose (hnext : ∀ a b, next (op a b) = op (next a) (next b)) {us vs : List α}
    (hlen : us.length = vs.length) (s t : α) :
    feed op next (op s t) (List.zipWith op us vs) = op (feed op next s us) (feed op next t vs) := by
  induction us generalizing vs s t with
  | nil =>
      obtain rfl := List.length_eq_zero_iff.mp hlen.symm
      rfl
  | cons u us ih =>
      obtain ⟨v, vs, rfl⟩ := List.exists_cons_of_length_eq_add_one hlen.symm
      have hstep : op (next (op s t)) (op u v) = op (op (next s) u) (op (next t) v) := by
        rw [hnext]
        ac_rfl
      rw [List.zipWith_cons_cons, feed_cons, hstep, ih (Nat.succ.inj hlen)]
      rfl

/-- What is added to the register before the digits is added, moved on, to the result. -/
theorem feed_op (hnext : ∀ a b, next (op a b) = op (next a) (next b)) (s d : α) (vs : List α) :
    feed op next (op s d) vs = op (feed op next s vs) (next^[vs.length] d) := by
  induction vs generalizing s d with
  | nil => rfl
  | cons v vs ih =>
      have hstep : op (next (op s d)) v = op (op (next s) v) (next d) := by
        rw [hnext]
        ac_rfl
      rw [feed_cons, hstep, ih, feed_cons, List.length_cons, Function.iterate_succ_apply]

section Inverse

variable {e : α} (hnext : ∀ a b, next (op a b) = op (next a) (next b)) (he : ∀ a, op e a = a)
  (hself : ∀ a, op a a = e)

include hnext he in
/-- The digits by themselves, and what zeros in their place make of the register. -/
theorem feed_split (s : α) (vs : List α) :
    feed op next s vs = op (feed op next s (List.replicate vs.length e)) (feed op next e vs) := by
  have hdigits : List.zipWith op (List.replicate vs.length e) vs = vs := by
    induction vs with
    | nil => rfl
    | cons v vs ih => rw [List.length_cons, List.replicate_succ, List.zipWith_cons_cons, he, ih]
  have hs : op s e = s := (Std.Commutative.comm s e).trans (he s)
  have hsum := feed_superpose hnext (List.length_replicate (n := vs.length) (a := e)) s e
  rwa [hdigits, hs] at hsum

include hnext he hself in
/-- **Check digits**: what they make of an empty register is added to what zeros in their place give. -/
theorem feed_check {s target : α} {check : List α}
    (hcheck : feed op next e check =
      op (feed op next s (List.replicate check.length e)) target) :
    feed op next s check = target := by
  rw [feed_split hnext he, hcheck]
  exact op_op_cancel he hself _ _

include hnext he hself in
/-- Digits that take one register to one result make the same of an empty one. -/
theorem feed_empty_congr {s : α} {us vs : List α} (hlen : us.length = vs.length)
    (h : feed op next s us = feed op next s vs) : feed op next e us = feed op next e vs := by
  rw [feed_split hnext he s us, feed_split hnext he s vs, hlen] at h
  generalize feed op next s (List.replicate vs.length e) = z at h
  rw [← op_op_cancel he hself z (feed op next e us), h, op_op_cancel he hself]

include hnext he hself in
/-- **A digit replaced**: the difference, moved on by the digits after it, is added to the result. -/
theorem feed_set (s w : α) {vs : List α} {i : ℕ} (hi : i < vs.length) :
    feed op next s (vs.set i w) =
      op (feed op next s vs) (next^[vs.length - 1 - i] (op vs[i] w)) := by
  have hcut : vs = vs.take i ++ vs[i] :: vs.drop (i + 1) := by
    rw [List.getElem_cons_drop, List.take_append_drop]
  have hstep (t : α) : op (next t) w = op (op (next t) vs[i]) (op vs[i] w) :=
    calc op (next t) w
        = op (next t) (op vs[i] (op vs[i] w)) := by rw [op_op_cancel he hself]
      _ = op (op (next t) vs[i]) (op vs[i] w) := (Std.Associative.assoc _ _ _).symm
  have hafter : (vs.drop (i + 1)).length = vs.length - 1 - i := by
    rw [List.length_drop]
    omega
  calc feed op next s (vs.set i w)
      = feed op next (op (next (feed op next s (vs.take i))) w) (vs.drop (i + 1)) := by
        rw [List.set_eq_take_append_cons_drop, if_pos hi, feed_append, feed_cons]
    _ = op (feed op next s vs) (next^[vs.length - 1 - i] (op vs[i] w)) := by
        rw [hstep, feed_op hnext, hafter, ← feed_cons, ← feed_append, ← hcut]

end Inverse

end PqcMigration.Lib
