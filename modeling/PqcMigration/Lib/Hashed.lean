/-
# PqcMigration.Lib.Hashed — computations that hash, and what equal results bind.

A hash function with a finite range has collisions, so "equal digests, equal messages" is false and
"or there is a collision" says nothing. What can be said is which messages collide: a computation
here carries the list of messages it hashed, and a result is bound up to a collision BETWEEN THE
MESSAGES OF THE TWO COMPUTATIONS — a pair one can read off both.

`Binds H x y P` is that statement: equal results of `x` and `y` give `P`, or such a collision. It
has one rule for each way a computation is built (`Binds.ask`, `Binds.pure`, `Binds.bind`), and the
binding proofs are assembled from these.
-/
import PqcMigration.Lib.Bytes

namespace PqcMigration.Lib

variable {α β γ δ : Type}

/-! ## Collisions between two lists of messages -/

/-- Some message of `xs` and some OTHER message of `ys` have the same hash. -/
def CollisionIn (H : α → δ) (xs ys : List α) : Prop :=
  ∃ x ∈ xs, ∃ y ∈ ys, x ≠ y ∧ H x = H y

instance [DecidableEq α] [DecidableEq δ] (H : α → δ) (xs ys : List α) :
    Decidable (CollisionIn H xs ys) :=
  inferInstanceAs (Decidable (∃ x ∈ xs, ∃ y ∈ ys, x ≠ y ∧ H x = H y))

theorem CollisionIn.mono {H : α → δ} {xs xs' ys ys' : List α} (h : CollisionIn H xs ys)
    (hxs : xs ⊆ xs') (hys : ys ⊆ ys') : CollisionIn H xs' ys' := by
  rcases h with ⟨x, hx, y, hy, hne, heq⟩
  exact ⟨x, hxs hx, y, hys hy, hne, heq⟩

theorem collisionIn_append {H : α → δ} {xs xs' ys : List α} :
    CollisionIn H (xs ++ xs') ys ↔ CollisionIn H xs ys ∨ CollisionIn H xs' ys := by
  constructor
  · rintro ⟨x, hx, hcoll⟩
    rcases List.mem_append.mp hx with hleft | hright
    · exact Or.inl ⟨x, hleft, hcoll⟩
    · exact Or.inr ⟨x, hright, hcoll⟩
  · rintro (hcoll | hcoll)
    · exact hcoll.mono (List.subset_append_left _ _) (List.Subset.refl _)
    · exact hcoll.mono (List.subset_append_right _ _) (List.Subset.refl _)

/-! ## Computations with their hashed messages -/

/-- A result, and the messages hashed on the way to it. -/
@[ext]
structure Hashed (α β : Type) where
  val : β
  inputs : List α

instance : Monad (Hashed α) where
  pure b := ⟨b, []⟩
  bind x f := ⟨(f x.val).val, x.inputs ++ (f x.val).inputs⟩

/-- Hash one message. -/
def ask (H : α → δ) (x : α) : Hashed α δ := ⟨H x, [x]⟩

@[simp] theorem val_bind (x : Hashed α β) (f : β → Hashed α γ) :
    (x >>= f).val = (f x.val).val := rfl

@[simp] theorem inputs_bind (x : Hashed α β) (f : β → Hashed α γ) :
    (x >>= f).inputs = x.inputs ++ (f x.val).inputs := rfl

instance : LawfulMonad (Hashed α) :=
  LawfulMonad.mk' (Hashed α)
    (fun x => Hashed.ext rfl (List.append_nil x.inputs))
    (fun _ _ => rfl)
    (fun x f g => Hashed.ext rfl (List.append_assoc x.inputs (f x.val).inputs _))

/-! ## Binding -/

/-- Equal results give `P`, or a collision between the messages hashed on the way. -/
def Binds (H : α → δ) (x y : Hashed α β) (P : Prop) : Prop :=
  x.val = y.val → P ∨ CollisionIn H x.inputs y.inputs

variable {H : α → δ}

theorem Binds.ask (x y : α) : Binds H (ask H x) (ask H y) (x = y) := by
  intro heq
  by_cases hxy : x = y
  · exact Or.inl hxy
  · exact Or.inr ⟨x, List.mem_singleton_self x, y, List.mem_singleton_self y, hxy, heq⟩

theorem Binds.pure (a b : β) : Binds H (pure a) (pure b) (a = b) := Or.inl

theorem Binds.imp {x y : Hashed α β} {P Q : Prop} (h : Binds H x y P) (hPQ : P → Q) :
    Binds H x y Q := by
  intro heq
  exact (h heq).imp_left hPQ

/-- What the continuations bind includes the first results, which in turn bind what they were
computed from. -/
theorem Binds.bind {x y : Hashed α β} {f g : β → Hashed α γ} {P Q : Prop} (hx : Binds H x y P)
    (hf : Binds H (f x.val) (g y.val) Q) (hQ : Q → x.val = y.val) :
    Binds H (x >>= f) (y >>= g) (P ∧ Q) := by
  intro heq
  rcases hf heq with hq | hcoll
  · rcases hx (hQ hq) with hp | hcoll
    · exact Or.inl ⟨hp, hq⟩
    · exact Or.inr (hcoll.mono (List.subset_append_left _ _) (List.subset_append_left _ _))
  · exact Or.inr (hcoll.mono (List.subset_append_right _ _) (List.subset_append_right _ _))

/-- Hashing more on the way only adds messages. -/
theorem Binds.of_right {x : Hashed α β} {w : Hashed α γ} {f : γ → Hashed α β} {P : Prop}
    (h : Binds H x (f w.val) P) : Binds H x (w >>= f) P := by
  intro heq
  exact (h heq).imp_right fun hcoll => hcoll.mono (List.Subset.refl _) (List.subset_append_right _ _)

/-- A list of computations, each of which binds what it is about. -/
theorem Binds.mapM {f : γ → Hashed α β} (hf : ∀ a b, Binds H (f a) (f b) (a = b)) {as bs : List γ}
    (hlen : as.length = bs.length) : Binds H (as.mapM f) (bs.mapM f) (as = bs) := by
  induction as generalizing bs with
  | nil =>
      obtain rfl := List.length_eq_zero_iff.mp hlen.symm
      exact fun _ => Or.inl rfl
  | cons a as ih =>
      obtain ⟨b, bs, rfl⟩ := List.exists_cons_of_length_eq_add_one hlen.symm
      rw [List.mapM_cons, List.mapM_cons]
      have hlast := Binds.pure (H := H) ((f a).val :: (as.mapM f).val) ((f b).val :: (bs.mapM f).val)
      have hrest := Binds.bind (f := fun xs => Pure.pure ((f a).val :: xs))
        (g := fun xs => Pure.pure ((f b).val :: xs)) (ih (Nat.succ.inj hlen)) hlast
        fun h => (List.cons.inj h).2
      refine (Binds.bind (hf a b) hrest fun h => (List.cons.inj h.2).1).imp ?_
      rintro ⟨rfl, rfl, -⟩
      rfl

/-! ## Digests as byte strings -/

/-- Hash one byte string, to the bytes of its digest. -/
def digest (H : Bytes → Bytes32) (bs : Bytes) : Hashed Bytes Bytes := ⟨(H bs).1, [bs]⟩

@[simp] theorem length_digest (H : Bytes → Bytes32) (bs : Bytes) :
    (digest H bs).val.length = 32 := (H bs).2

theorem Binds.digest {H : Bytes → Bytes32} (x y : Bytes) :
    Binds H (digest H x) (digest H y) (x = y) := by
  intro heq
  exact Binds.ask x y (Subtype.ext heq)

/-- Two results hashed together bind what each binds. -/
theorem Binds.pair {H : Bytes → Bytes32} {x y x' y' : Hashed Bytes Bytes} {P Q : Prop}
    (hx : Binds H x x' P) (hy : Binds H y y' Q) (hlen : x.val.length = x'.val.length) :
    Binds H (x >>= fun a => y >>= fun b => Lib.digest H (a ++ b))
      (x' >>= fun a => y' >>= fun b => Lib.digest H (a ++ b)) (P ∧ Q) := by
  have htop : Binds H (Lib.digest H (x.val ++ y.val)) (Lib.digest H (x'.val ++ y'.val))
      (x.val = x'.val ∧ y.val = y'.val) :=
    (Binds.digest _ _).imp fun h => List.append_inj h hlen
  have hright := Binds.bind (f := fun b => Lib.digest H (x.val ++ b))
    (g := fun b => Lib.digest H (x'.val ++ b)) hy htop And.right
  exact (Binds.bind hx hright fun h => h.2.1).imp fun h => ⟨h.1, h.2.1⟩

end PqcMigration.Lib
