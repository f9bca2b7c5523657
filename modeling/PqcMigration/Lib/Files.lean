/-
# PqcMigration.Lib.Files — names, inodes and contents: open, write, rename.

A name leads to an inode and the inode has the content; an open file keeps its INODE, so a name can be
taken away from under it. There are no hard links: an inode has at most one name, which is part of the
structure. `openTrunc` is `open(…, "w")`, `writeAt` a write at an offset (past the end it leaves a
hole), and `rename` replaces what the target name led to, in one step.
-/
import Mathlib.Logic.Function.Basic
import Mathlib.Tactic.Common

namespace PqcMigration.Lib

universe u v

structure Files (N : Type u) (α : Type v) where
  entry : N → Option ℕ
  content : ℕ → List α
  next : ℕ
  used : ∀ n ino, entry n = some ino → ino < next
  single : ∀ n n' ino, entry n = some ino → entry n' = some ino → n = n'

/-- A list with `data` at offset `off`; a gap is filled with `hole`. -/
def overwrite {α : Type v} (hole : α) (l : List α) (off : ℕ) (data : List α) : List α :=
  l.take off ++ List.replicate (off - l.length) hole ++ data ++ l.drop (off + data.length)

/-- Writing on where a write stopped. -/
theorem overwrite_take {α : Type v} (hole : α) (doc : List α) {done : ℕ} (h : done ≤ doc.length)
    (n : ℕ) : overwrite hole (doc.take done) done ((doc.drop done).take n) =
      doc.take (min (done + n) doc.length) := by
  have hlen : (doc.take done).length = done := by
    rw [List.length_take]
    omega
  have htake : (doc.take done).take done = doc.take done :=
    List.take_of_length_le (by omega)
  have hgap : List.replicate (done - (doc.take done).length) hole = [] := by
    rw [hlen, Nat.sub_self, List.replicate_zero]
  have hdrop : (doc.take done).drop (done + ((doc.drop done).take n).length) = [] :=
    List.drop_of_length_le (by omega)
  have hmin : doc.take (min (done + n) doc.length) = doc.take (done + n) := by
    rcases Nat.le_total (done + n) doc.length with hle | hle
    · rw [Nat.min_eq_left hle]
    · rw [Nat.min_eq_right hle, List.take_length, List.take_of_length_le hle]
  rw [overwrite, htake, hgap, hdrop, List.append_nil, List.append_nil, hmin, List.take_add]

namespace Files

variable {N : Type u} {α : Type v}

/-- No files. -/
def empty : Files N α := ⟨fun _ => none, fun _ => [], 0, by simp, by simp⟩

/-- What reading a name gives. -/
def read (f : Files N α) (n : N) : Option (List α) := (f.entry n).map f.content

/-- A write to an open file. -/
def writeAt (hole : α) (f : Files N α) (ino off : ℕ) (data : List α) : Files N α :=
  { f with content := Function.update f.content ino (overwrite hole (f.content ino) off data) }

section

variable [DecidableEq N]

/-- A new, empty file under a name that was free. -/
def create (f : Files N α) (n : N) (hfree : f.entry n = none) : Files N α where
  entry := Function.update f.entry n (some f.next)
  content := Function.update f.content f.next []
  next := f.next + 1
  used := by
    intro n' ino h
    by_cases hn : n' = n
    · subst hn
      rw [Function.update_self] at h
      have := Option.some.inj h
      omega
    · rw [Function.update_of_ne hn] at h
      have := f.used n' ino h
      omega
  single := by
    intro n₁ n₂ ino h₁ h₂
    by_cases hn₁ : n₁ = n <;> by_cases hn₂ : n₂ = n
    · rw [hn₁, hn₂]
    · rw [hn₁, Function.update_self] at h₁
      rw [Function.update_of_ne hn₂] at h₂
      have := f.used n₂ ino h₂
      have := Option.some.inj h₁
      omega
    · rw [hn₂, Function.update_self] at h₂
      rw [Function.update_of_ne hn₁] at h₁
      have := f.used n₁ ino h₁
      have := Option.some.inj h₂
      omega
    · rw [Function.update_of_ne hn₁] at h₁
      rw [Function.update_of_ne hn₂] at h₂
      exact f.single n₁ n₂ ino h₁ h₂

/-- `open(n, "w")`: an existing file is cut to length zero. The inode is the open file's. -/
def openTrunc (f : Files N α) (n : N) : Files N α × ℕ :=
  match h : f.entry n with
  | some ino => ({ f with content := Function.update f.content ino [] }, ino)
  | none => (f.create n h, f.next)

/-- `rename`: the name `src` goes, and `dst` leads to its inode; `none` where there is no `src`. -/
def rename (f : Files N α) (src dst : N) : Option (Files N α) :=
  match h : f.entry src with
  | none => none
  | some ino =>
      some
        { entry := Function.update (Function.update f.entry src none) dst (some ino)
          content := f.content
          next := f.next
          used := by
            intro n ino' h'
            by_cases hn : n = dst
            · subst hn
              rw [Function.update_self] at h'
              exact Option.some.inj h' ▸ f.used src ino h
            · rw [Function.update_of_ne hn] at h'
              by_cases hs : n = src
              · subst hs
                rw [Function.update_self] at h'
                cases h'
              · rw [Function.update_of_ne hs] at h'
                exact f.used n ino' h'
          single := by
            -- a name other than `dst` that leads somewhere is neither `src` nor shares its inode
            have hother : ∀ n ino', n ≠ dst →
                Function.update (Function.update f.entry src none) dst (some ino) n = some ino' →
                f.entry n = some ino' ∧ ino' ≠ ino := by
              intro n ino' hn h'
              rw [Function.update_of_ne hn] at h'
              by_cases hs : n = src
              · subst hs
                rw [Function.update_self] at h'
                cases h'
              · rw [Function.update_of_ne hs] at h'
                refine ⟨h', ?_⟩
                rintro rfl
                exact hs (f.single n src ino' h' h)
            intro n₁ n₂ ino' h₁ h₂
            by_cases hn₁ : n₁ = dst <;> by_cases hn₂ : n₂ = dst
            · rw [hn₁, hn₂]
            · rw [hn₁, Function.update_self] at h₁
              exact absurd (Option.some.inj h₁).symm (hother n₂ ino' hn₂ h₂).2
            · rw [hn₂, Function.update_self] at h₂
              exact absurd (Option.some.inj h₂).symm (hother n₁ ino' hn₁ h₁).2
            · exact f.single n₁ n₂ ino' (hother n₁ ino' hn₁ h₁).1 (hother n₂ ino' hn₂ h₂).1 }

end

/-! ## What can be read afterwards -/

variable {f : Files N α} {n n' : N}

/-- Writing to one file leaves what is under a name of another. -/
theorem read_writeAt_of_ne {hole : α} {ino off : ℕ} {data : List α} (hino : f.entry n = some ino)
    (h : n' ≠ n) : (f.writeAt hole ino off data).read n' = f.read n' := by
  show (f.entry n').map (Function.update f.content ino _) = (f.entry n').map f.content
  cases hn' : f.entry n' with
  | none => rfl
  | some ino' =>
      have hne : ino' ≠ ino := by
        rintro rfl
        exact h (f.single n' n ino' hn' hino)
      rw [Option.map_some, Option.map_some, Function.update_of_ne hne]

variable [DecidableEq N]

theorem entry_openTrunc (f : Files N α) (n : N) :
    (f.openTrunc n).1.entry n = some (f.openTrunc n).2 := by
  rw [openTrunc]
  split
  · assumption
  · exact Function.update_self _ _ _

theorem content_openTrunc (f : Files N α) (n : N) :
    (f.openTrunc n).1.content (f.openTrunc n).2 = [] := by
  rw [openTrunc]
  split
  · exact Function.update_self _ _ _
  · exact Function.update_self _ _ _

/-- Opening one name leaves what is under another. -/
theorem read_openTrunc_of_ne (h : n' ≠ n) : (f.openTrunc n).1.read n' = f.read n' := by
  rw [openTrunc]
  split
  · next ino hino =>
      show (f.entry n').map (Function.update f.content ino []) = (f.entry n').map f.content
      cases hn' : f.entry n' with
      | none => rfl
      | some ino' =>
          have hne : ino' ≠ ino := by
            rintro rfl
            exact h (f.single n' n ino' hn' hino)
          rw [Option.map_some, Option.map_some, Function.update_of_ne hne]
  · next hfree =>
      show (Function.update f.entry n (some f.next) n').map (Function.update f.content f.next []) =
        (f.entry n').map f.content
      rw [Function.update_of_ne h]
      cases hn' : f.entry n' with
      | none => rfl
      | some ino' =>
          have hne : ino' ≠ f.next := Nat.ne_of_lt (f.used n' ino' hn')
          rw [Option.map_some, Option.map_some, Function.update_of_ne hne]

/-- A rename gives the target what was under the source. -/
theorem rename_eq_some {src dst : N} {ino : ℕ} (h : f.entry src = some ino) :
    ∃ f', f.rename src dst = some f' ∧ f'.read dst = f.read src ∧
      f'.entry = Function.update (Function.update f.entry src none) dst (some ino) := by
  rw [rename]
  split
  · next hnone =>
      rw [h] at hnone
      cases hnone
  · next ino' hino' =>
      obtain rfl : ino = ino' := Option.some.inj (h.symm.trans hino')
      refine ⟨_, rfl, ?_, rfl⟩
      show (Function.update (Function.update f.entry src none) dst (some ino) dst).map f.content =
        (f.entry src).map f.content
      rw [Function.update_self, h]

theorem rename_eq_none {src dst : N} (h : f.entry src = none) : f.rename src dst = none := by
  rw [rename]
  split
  · rfl
  · next ino hino =>
      rw [h] at hino
      cases hino

end Files

end PqcMigration.Lib
