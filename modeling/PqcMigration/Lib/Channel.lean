/-
# PqcMigration.Lib.Channel — one sender, a bounded channel, and workers that act on what they take.

Items go through a buffer of fixed capacity, in order. A worker takes the first of them, acts on it
(something others can see: a message posted, a line printed), and finishes with a result; a worker may
also finish without having acted. Once the channel is closed and empty, workers leave. Workers move in
any order.

Two laws. Nothing is lost or duplicated: what was sent is what is done, in hand, or in the buffer
(`Conserved`). And the buffer keeps the order, but the workers do not: what they act on is in the order
of sending, for one key at a time, as long as no worker takes an item while another has one of the same
key in hand and has not acted on it (`Ordered`).
-/
import Mathlib.Data.List.Perm.Basic
import PqcMigration.Lib.Threads

namespace PqcMigration.Lib.Channel

universe u v w

variable {ι : Type u} {α : Type v} {ρ : Type w}

/-- Where a worker stands. -/
inductive Pc (α : Type v) where
  | idle
  /-- taken, not acted on -/
  | holding (a : α)
  | acted (a : α)
  | left
  deriving DecidableEq

/-- The item a worker has in hand. -/
def Pc.item : Pc α → Option α
  | .holding a => some a
  | .acted a => some a
  | _ => none

/-- The item a worker has in hand and has not acted on. -/
def Pc.unacted : Pc α → Option α
  | .holding a => some a
  | _ => none

theorem Pc.unacted_eq_some {p : Pc α} {a : α} : p.unacted = some a ↔ p = .holding a := by
  cases p <;> simp [Pc.unacted]

structure State (ι : Type u) (α : Type v) (ρ : Type w) where
  /-- everything ever sent -/
  sent : List α
  buf : List α
  closed : Bool
  pc : ι → Pc α
  /-- what the workers acted on, in order -/
  acts : List α
  done : List (α × ρ)

/-- A step of a worker. -/
inductive Move (ι : Type u) (ρ : Type w) where
  | take (i : ι)
  | act (i : ι)
  | finish (i : ι) (result : ρ)
  | leave (i : ι)

def start : State ι α ρ := ⟨[], [], false, fun _ => .idle, [], []⟩

def send (capacity : ℕ) (s : State ι α ρ) (a : α) : Option (State ι α ρ) :=
  if s.closed = false ∧ s.buf.length < capacity then
    some { s with sent := s.sent ++ [a], buf := s.buf ++ [a] }
  else none

def close (s : State ι α ρ) : Option (State ι α ρ) :=
  if s.closed = false then some { s with closed := true } else none

section Move

variable [DecidableEq ι]

def move (s : State ι α ρ) : Move ι ρ → Option (State ι α ρ)
  | .take i =>
      match s.pc i, s.buf with
      | .idle, a :: rest => some { s with buf := rest, pc := Function.update s.pc i (.holding a) }
      | _, _ => none
  | .act i =>
      match s.pc i with
      | .holding a =>
          some { s with pc := Function.update s.pc i (.acted a), acts := s.acts ++ [a] }
      | _ => none
  | .finish i result =>
      match (s.pc i).item with
      | some a =>
          some { s with pc := Function.update s.pc i .idle, done := s.done ++ [(a, result)] }
      | none => none
  | .leave i =>
      match s.pc i, s.buf, s.closed with
      | .idle, [], true => some { s with pc := Function.update s.pc i .left }
      | _, _, _ => none

variable {s t : State ι α ρ} {m : Move ι ρ}

/-- Everything a worker can do. -/
theorem move_cases (h : move s m = some t) :
    (∃ i a rest, m = .take i ∧ s.pc i = .idle ∧ s.buf = a :: rest ∧
      t = { s with buf := rest, pc := Function.update s.pc i (.holding a) }) ∨
    (∃ i a, m = .act i ∧ s.pc i = .holding a ∧
      t = { s with pc := Function.update s.pc i (.acted a), acts := s.acts ++ [a] }) ∨
    (∃ i a result, m = .finish i result ∧ (s.pc i).item = some a ∧
      t = { s with pc := Function.update s.pc i .idle, done := s.done ++ [(a, result)] }) ∨
    (∃ i, m = .leave i ∧ s.pc i = .idle ∧ s.buf = [] ∧ s.closed = true ∧
      t = { s with pc := Function.update s.pc i .left }) := by
  cases m with
  | take i =>
      simp only [move] at h
      split at h
      · rename_i a rest hidle hbuf
        exact .inl ⟨i, a, rest, rfl, hidle, hbuf, (Option.some.inj h).symm⟩
      · cases h
  | act i =>
      simp only [move] at h
      split at h
      · rename_i a hholding
        exact .inr (.inl ⟨i, a, rfl, hholding, (Option.some.inj h).symm⟩)
      · cases h
  | finish i result =>
      simp only [move] at h
      split at h
      · rename_i a hitem
        exact .inr (.inr (.inl ⟨i, a, result, rfl, hitem, (Option.some.inj h).symm⟩))
      · cases h
  | leave i =>
      simp only [move] at h
      split at h
      · rename_i hidle hbuf hclosed
        exact .inr (.inr (.inr ⟨i, rfl, hidle, hbuf, hclosed, (Option.some.inj h).symm⟩))
      · cases h

/-- Workers neither send nor close. -/
theorem move_sent (h : move s m = some t) : t.sent = s.sent ∧ t.closed = s.closed := by
  obtain ⟨i, a, rest, -, -, -, rfl⟩ | ⟨i, a, -, -, rfl⟩ | ⟨i, a, result, -, -, rfl⟩ |
    ⟨i, -, -, -, -, rfl⟩ := move_cases h
  all_goals exact ⟨rfl, rfl⟩

end Move

section Send

variable {s t : State ι α ρ} {a : α} {capacity : ℕ}

theorem send_eq_some (h : send capacity s a = some t) :
    s.closed = false ∧ s.buf.length < capacity ∧
      t = { s with sent := s.sent ++ [a], buf := s.buf ++ [a] } := by
  rw [send] at h
  split at h
  · rename_i hguard
    exact ⟨hguard.1, hguard.2, (Option.some.inj h).symm⟩
  · cases h

theorem close_eq_some (h : close s = some t) :
    s.closed = false ∧ t = { s with closed := true } := by
  rw [close] at h
  split at h
  · rename_i hopen
    exact ⟨hopen, (Option.some.inj h).symm⟩
  · cases h

end Send

/-! ## Nothing is lost or duplicated -/

section Conserved

variable [Fintype ι] [DecidableEq α]

/-- How often a worker has the item in hand. -/
def Pc.count (a : α) (p : Pc α) : ℕ := if p.item = some a then 1 else 0

theorem Pc.count_of_item {a : α} {p : Pc α} (h : p.item = some a) (b : α) :
    p.count b = [a].count b := by
  rw [Pc.count, h, List.count_singleton]
  simp only [Option.some.injEq, beq_iff_eq]

theorem Pc.count_of_none {p : Pc α} (h : p.item = none) (b : α) : p.count b = 0 := by
  rw [Pc.count, h]
  rfl

/-- How often the workers together have the item in hand. -/
def inHand (pc : ι → Pc α) (a : α) : ℕ := ∑ i, (pc i).count a

theorem inHand_update [DecidableEq ι] (pc : ι → Pc α) (i : ι) (p : Pc α) (a : α) :
    inHand (Function.update pc i p) a + (pc i).count a = inHand pc a + p.count a :=
  sum_update (fun _ => Pc.count a) pc i p

structure Conserved (s : State ι α ρ) : Prop where
  count : ∀ a, s.sent.count a =
    (s.done.map Prod.fst).count a + inHand s.pc a + s.buf.count a
  left : ∀ i, s.pc i = .left → s.buf = [] ∧ s.closed = true

theorem conserved_start : Conserved (start : State ι α ρ) where
  count a := by simp [start, inHand, Pc.count, Pc.item]
  left i h := by cases h

variable {s t : State ι α ρ}

theorem Conserved.send (hs : Conserved s) {capacity : ℕ} {a : α}
    (h : Channel.send capacity s a = some t) : Conserved t := by
  obtain ⟨hopen, -, rfl⟩ := send_eq_some h
  refine ⟨fun b => ?_, fun i hi => ?_⟩
  · simp only [List.count_append, hs.count b]
    omega
  · rw [(hs.left i hi).2] at hopen
    cases hopen

theorem Conserved.close (hs : Conserved s) (h : Channel.close s = some t) : Conserved t := by
  obtain ⟨-, rfl⟩ := close_eq_some h
  exact ⟨hs.count, fun i hi => ⟨(hs.left i hi).1, rfl⟩⟩

theorem Conserved.move [DecidableEq ι] (hs : Conserved s) {m : Move ι ρ}
    (h : Channel.move s m = some t) : Conserved t := by
  have hleft (i : ι) (p : Pc α) (hp : p ≠ .left) (j : ι) (hj : Function.update s.pc i p j = .left) :
      s.buf = [] ∧ s.closed = true :=
    hs.left j (of_update_of_not (Q := fun q => q = Pc.left) hp hj).2
  obtain ⟨i, a, rest, -, hidle, hbuf, rfl⟩ | ⟨i, a, -, hholding, rfl⟩ |
    ⟨i, a, result, -, hitem, rfl⟩ | ⟨i, -, hidle, hbuf, hclosed, rfl⟩ := move_cases h
  · refine ⟨fun b => ?_, fun j hj => ?_⟩
    · have hsum := inHand_update s.pc i (.holding a) b
      rw [hidle, Pc.count_of_none rfl, Pc.count_of_item rfl] at hsum
      have hcount := hs.count b
      rw [hbuf, List.count_cons, ← List.count_singleton] at hcount
      show s.sent.count b =
      (s.done.map Prod.fst).count b + inHand (Function.update s.pc i (.holding a)) b + rest.count b
      omega
    · have hempty := (hleft i (.holding a) (by simp) j hj).1
      rw [hbuf] at hempty
      cases hempty
  · refine ⟨fun b => ?_, hleft i (.acted a) (by simp)⟩
    have hsum := inHand_update s.pc i (.acted a) b
    rw [hholding, Pc.count_of_item rfl, Pc.count_of_item rfl] at hsum
    have hcount := hs.count b
    show s.sent.count b =
      (s.done.map Prod.fst).count b + inHand (Function.update s.pc i (.acted a)) b + s.buf.count b
    omega
  · refine ⟨fun b => ?_, hleft i .idle (by simp)⟩
    have hsum := inHand_update s.pc i .idle b
    rw [Pc.count_of_item hitem, Pc.count_of_none rfl] at hsum
    have hcount := hs.count b
    show s.sent.count b =
      ((s.done ++ [(a, result)]).map Prod.fst).count b + inHand (Function.update s.pc i .idle) b + s.buf.count b
    rw [List.map_append, List.count_append]
    change _ = _ + [a].count b + _ + _
    omega
  · refine ⟨fun b => ?_, fun j _ => ⟨hbuf, hclosed⟩⟩
    have hsum := inHand_update s.pc i .left b
    rw [hidle, Pc.count_of_none rfl, Pc.count_of_none rfl] at hsum
    have hcount := hs.count b
    show s.sent.count b =
      (s.done.map Prod.fst).count b + inHand (Function.update s.pc i .left) b + s.buf.count b
    omega

/-- **Exactly once.** When every worker has left, what is done is what was sent. -/
theorem Conserved.perm [Nonempty ι] (hs : Conserved s) (hleft : ∀ i, s.pc i = .left) :
    (s.done.map Prod.fst).Perm s.sent := by
  have hbuf : s.buf = [] := (hs.left (Classical.arbitrary ι) (hleft _)).1
  rw [List.perm_iff_count]
  intro a
  have hnone : inHand s.pc a = 0 := by
    apply Finset.sum_eq_zero
    intro i _
    rw [hleft i]
    rfl
  rw [hs.count a, hnone, hbuf, List.count_nil, Nat.add_zero]

end Conserved

/-! ## Workers come to an end -/

/-- How many steps a worker has before it, at most, apart from what it has not taken. -/
def Pc.weight : Pc α → ℕ
  | .idle => 1
  | .holding _ => 3
  | .acted _ => 2
  | .left => 0

/-- How many steps are left, at most, if nothing more is sent. -/
def State.weight [Fintype ι] (s : State ι α ρ) : ℕ :=
  (if s.closed then 0 else 1) + 3 * s.buf.length + ∑ i, (s.pc i).weight

section Weight

variable [Fintype ι] {s t : State ι α ρ}

theorem weight_send {capacity : ℕ} {a : α} (h : send capacity s a = some t) :
    t.weight = s.weight + 3 := by
  obtain ⟨-, -, rfl⟩ := send_eq_some h
  simp only [State.weight, List.length_append, List.length_singleton]
  omega

theorem weight_close (h : close s = some t) : t.weight < s.weight := by
  obtain ⟨hopen, rfl⟩ := close_eq_some h
  simp only [State.weight, hopen]
  simp

theorem Pc.one_lt_weight {p : Pc α} {a : α} (h : p.item = some a) : 1 < p.weight := by
  cases p with
  | holding b => exact (by decide : 1 < 3)
  | acted b => exact (by decide : 1 < 2)
  | idle | left => cases h

theorem weight_move [DecidableEq ι] {m : Move ι ρ} (h : move s m = some t) : t.weight < s.weight := by
  obtain ⟨i, a, rest, -, hidle, hbuf, rfl⟩ | ⟨i, a, -, hholding, rfl⟩ | ⟨i, a, r, -, hitem, rfl⟩ |
    ⟨i, -, hidle, -, -, rfl⟩ := move_cases h
  · have hsum := sum_update (fun _ => Pc.weight) s.pc i (.holding a)
    rw [hidle, Pc.weight, Pc.weight] at hsum
    simp only [State.weight, hbuf, List.length_cons]
    omega
  · have hsum := sum_update (fun _ => Pc.weight) s.pc i (.acted a)
    rw [hholding, Pc.weight, Pc.weight] at hsum
    simp only [State.weight]
    omega
  · have hsum := sum_update (fun _ => Pc.weight) s.pc i .idle
    have hlt := Pc.one_lt_weight hitem
    rw [Pc.weight] at hsum
    simp only [State.weight]
    omega
  · have hsum := sum_update (fun _ => Pc.weight) s.pc i .left
    rw [hidle, Pc.weight, Pc.weight] at hsum
    simp only [State.weight]
    omega

end Weight

/-- A worker that has not left can move, or waits at an empty, open channel. -/
theorem exists_move [DecidableEq ι] [Nonempty ρ] {s : State ι α ρ} {i : ι} (hi : s.pc i ≠ .left) :
    (∃ (m : Move ι ρ) (t : State ι α ρ), move s m = some t) ∨ (s.buf = [] ∧ s.closed = false) := by
  obtain ⟨r⟩ := ‹Nonempty ρ›
  cases hpc : s.pc i with
  | left => exact absurd hpc hi
  | holding a => exact .inl ⟨.act i, _, by rw [move, hpc]⟩
  | acted a => exact .inl ⟨.finish i r, _, by rw [move, hpc, Pc.item]⟩
  | idle =>
      cases hbuf : s.buf with
      | cons a rest => exact .inl ⟨.take i, _, by rw [move, hpc, hbuf]⟩
      | nil =>
          cases hclosed : s.closed with
          | true => exact .inl ⟨.leave i, _, by rw [move, hpc, hbuf, hclosed]⟩
          | false => exact .inr ⟨rfl, rfl⟩

/-! ## Order -/

/-- What has been taken is a front part of what was sent, and what is in hand has been taken. -/
def Fifo (s : State ι α ρ) : Prop :=
  ∃ taken, s.sent = taken ++ s.buf ∧ ∀ i a, (s.pc i).item = some a → a ∈ taken

section Order

theorem fifo_start : Fifo (start : State ι α ρ) := ⟨[], rfl, fun _ _ h => by cases h⟩

variable {s t : State ι α ρ}

theorem Fifo.send (hs : Fifo s) {capacity : ℕ} {a : α} (h : Channel.send capacity s a = some t) :
    Fifo t := by
  obtain ⟨-, -, rfl⟩ := send_eq_some h
  obtain ⟨taken, hsent, hitem⟩ := hs
  exact ⟨taken, by rw [hsent, List.append_assoc], hitem⟩

theorem Fifo.close (hs : Fifo s) (h : Channel.close s = some t) : Fifo t := by
  obtain ⟨-, rfl⟩ := close_eq_some h
  exact hs

theorem Fifo.move [DecidableEq ι] (hs : Fifo s) {m : Move ι ρ} (h : Channel.move s m = some t) :
    Fifo t := by
  obtain ⟨taken, hsent, hhand⟩ := hs
  obtain ⟨i, a, rest, -, hidle, hbuf, rfl⟩ | ⟨i, a, -, hholding, rfl⟩ |
    ⟨i, a, result, -, hitem, rfl⟩ | ⟨i, -, hidle, hbuf, hclosed, rfl⟩ := move_cases h
  · refine ⟨taken ++ [a], by rw [hsent, hbuf, List.append_assoc]; rfl, fun j b hj => ?_⟩
    rw [List.mem_append, List.mem_singleton]
    rcases of_update (Q := fun p : Pc α => p.item = some b) hj with ⟨-, hb⟩ | ⟨-, hb⟩
    · exact .inr (Option.some.inj hb).symm
    · exact .inl (hhand j b hb)
  · refine ⟨taken, hsent, fun j b hj => hhand j b ?_⟩
    refine of_update_of_imp (Q := fun p : Pc α => p.item = some b) (fun hb => ?_) hj
    rw [hholding]
    exact hb
  · exact ⟨taken, hsent, fun j b hj =>
      hhand j b (of_update_of_not (Q := fun p : Pc α => p.item = some b) (by simp [Pc.item]) hj).2⟩
  · exact ⟨taken, hsent, fun j b hj =>
      hhand j b (of_update_of_not (Q := fun p : Pc α => p.item = some b) (by simp [Pc.item]) hj).2⟩

variable {κ : Type*} (key : α → κ)

/-- The item that is taken has a key that no worker has an item of in hand, not acted on. -/
def Alone (s : State ι α ρ) : Move ι ρ → Prop
  | .take _ => ∀ a ∈ s.buf.head?, ∀ j, ∀ b ∈ (s.pc j).unacted, key b ≠ key a
  | _ => True

variable [DecidableEq κ]

instance [Fintype ι] (s : State ι α ρ) : (m : Move ι ρ) → Decidable (Alone key s m)
  | .take _ => inferInstanceAs (Decidable (∀ a ∈ s.buf.head?, ∀ j, ∀ b ∈ (s.pc j).unacted, key b ≠ key a))
  | .act _ => .isTrue trivial
  | .finish _ _ => .isTrue trivial
  | .leave _ => .isTrue trivial

/-- The items of one key. -/
def ofKey (k : κ) (as : List α) : List α := as.filter fun a => key a = k

structure Ordered (s : State ι α ρ) : Prop where
  alone : ∀ i j a b, s.pc i = .holding a → s.pc j = .holding b → key a = key b → i = j
  /-- what was acted on came in the order of taking, and what is in hand came last -/
  sublist : ∃ taken, s.sent = taken ++ s.buf ∧ ∀ k, (ofKey key k s.acts).Sublist (ofKey key k taken) ∧
    ∀ i a, s.pc i = .holding a → key a = k →
      (ofKey key k s.acts ++ [a]).Sublist (ofKey key k taken)

theorem ordered_start : Ordered key (start : State ι α ρ) where
  alone _ _ _ _ h := by cases h
  sublist := ⟨[], rfl, fun k => ⟨List.Sublist.refl _, fun _ _ h => by cases h⟩⟩

variable {key}

theorem ofKey_nil (k : κ) : ofKey key k [] = [] := rfl

theorem ofKey_append (k : κ) (as bs : List α) :
    ofKey key k (as ++ bs) = ofKey key k as ++ ofKey key k bs := List.filter_append as bs

theorem ofKey_singleton_self (a : α) : ofKey key (key a) [a] = [a] := by
  simp [ofKey]

theorem ofKey_singleton_of_ne {k : κ} {a : α} (h : key a ≠ k) : ofKey key k [a] = [] := by
  simp [ofKey, h]

theorem Ordered.send (hs : Ordered key s) {capacity : ℕ} {a : α}
    (h : Channel.send capacity s a = some t) : Ordered key t := by
  obtain ⟨-, -, rfl⟩ := send_eq_some h
  obtain ⟨taken, hsent, hsub⟩ := hs.sublist
  exact ⟨hs.alone, taken, by rw [hsent, List.append_assoc], hsub⟩

theorem Ordered.close (hs : Ordered key s) (h : Channel.close s = some t) : Ordered key t := by
  obtain ⟨-, rfl⟩ := close_eq_some h
  exact ⟨hs.alone, hs.sublist⟩

/-- A worker that holds nothing new leaves the order as it is. -/
theorem Ordered.of_release [DecidableEq ι] (hs : Ordered key s) {i : ι} {p : Pc α}
    (hp : ∀ a, p ≠ .holding a) {done : List (α × ρ)} :
    Ordered key { s with pc := Function.update s.pc i p, done := done } := by
  have hkeep : ∀ j a, Function.update s.pc i p j = .holding a → s.pc j = .holding a :=
    fun j a hj => (of_update_of_not (Q := fun q => q = Pc.holding a) (hp a) hj).2
  obtain ⟨taken, hsent, hsub⟩ := hs.sublist
  exact ⟨fun j k a b hj hk => hs.alone j k a b (hkeep j a hj) (hkeep k b hk), taken, hsent,
    fun k => ⟨(hsub k).1, fun j a hj => (hsub k).2 j a (hkeep j a hj)⟩⟩

theorem Ordered.take [DecidableEq ι] (hs : Ordered key s) {i : ι} {a : α} {rest : List α}
    (hbuf : s.buf = a :: rest) (halone : ∀ j b, s.pc j = .holding b → key b ≠ key a) :
    Ordered key { s with buf := rest, pc := Function.update s.pc i (.holding a) } := by
  obtain ⟨taken, hsent, hsub⟩ := hs.sublist
  refine ⟨fun j k b c hj hk hkey => ?_, taken ++ [a], by rw [hsent, hbuf, List.append_assoc]; rfl,
    fun k => ⟨?_, fun j b hj hkey => ?_⟩⟩
  · rcases of_update (Q := fun q => q = Pc.holding b) hj with ⟨rfl, hb⟩ | ⟨-, hb⟩
    · rcases of_update (Q := fun q => q = Pc.holding c) hk with ⟨rfl, -⟩ | ⟨-, hc⟩
      · rfl
      · obtain rfl := Pc.holding.inj hb
        exact absurd hkey.symm (halone k c hc)
    · rcases of_update (Q := fun q => q = Pc.holding c) hk with ⟨rfl, hc⟩ | ⟨-, hc⟩
      · obtain rfl := Pc.holding.inj hc
        exact absurd hkey (halone j b hb)
      · exact hs.alone j k b c hb hc hkey
  · rw [ofKey_append]
    exact (hsub k).1.trans (List.sublist_append_left _ _)
  · rcases of_update (Q := fun q => q = Pc.holding b) hj with ⟨-, hb⟩ | ⟨-, hb⟩
    · obtain rfl := Pc.holding.inj hb
      rw [ofKey_append, ← hkey, ofKey_singleton_self]
      exact (hsub (key a)).1.append (List.Sublist.refl _)
    · rw [ofKey_append]
      exact ((hsub k).2 j b hb hkey).trans (List.sublist_append_left _ _)

theorem Ordered.act [DecidableEq ι] (hs : Ordered key s) {i : ι} {a : α} (hholding : s.pc i = .holding a) :
    Ordered key { s with pc := Function.update s.pc i (.acted a), acts := s.acts ++ [a] } := by
  have hkeep : ∀ j b, Function.update s.pc i (.acted a) j = .holding b → j ≠ i ∧ s.pc j = .holding b :=
    fun j b hj => of_update_of_not (Q := fun q => q = Pc.holding b) (by simp) hj
  obtain ⟨taken, hsent, hsub⟩ := hs.sublist
  refine ⟨fun j k b c hj hk => hs.alone j k b c (hkeep j b hj).2 (hkeep k c hk).2, taken, hsent,
    fun k => ?_⟩
  by_cases hk : key a = k
  · subst hk
    rw [ofKey_append, ofKey_singleton_self]
    refine ⟨(hsub (key a)).2 i a hholding rfl, fun j b hj hkey => ?_⟩
    -- another worker with an item of this key would be this one
    exact absurd (hs.alone j i b a (hkeep j b hj).2 hholding hkey) (hkeep j b hj).1
  · rw [ofKey_append, ofKey_singleton_of_ne hk, List.append_nil]
    exact ⟨(hsub k).1, fun j b hj hkey => (hsub k).2 j b (hkeep j b hj).2 hkey⟩

theorem Ordered.move [DecidableEq ι] (hs : Ordered key s) {m : Move ι ρ} (halone : Alone key s m)
    (h : Channel.move s m = some t) : Ordered key t := by
  obtain ⟨i, a, rest, rfl, hidle, hbuf, rfl⟩ | ⟨i, a, rfl, hholding, rfl⟩ |
    ⟨i, a, result, rfl, hitem, rfl⟩ | ⟨i, rfl, hidle, hbuf, hclosed, rfl⟩ := move_cases h
  · refine hs.take hbuf fun j b hj => ?_
    exact halone a (by rw [hbuf]; rfl) j b (Pc.unacted_eq_some.mpr hj)
  · exact hs.act hholding
  · exact hs.of_release (by simp)
  · exact hs.of_release (by simp)

/-- **In the order of sending**, for each key. -/
theorem Ordered.acts_sublist (hs : Ordered key s) (k : κ) :
    (ofKey key k s.acts).Sublist (ofKey key k s.sent) := by
  obtain ⟨taken, hsent, hsub⟩ := hs.sublist
  rw [hsent, ofKey_append]
  exact (hsub k).1.trans (List.sublist_append_left _ _)

omit [DecidableEq κ] in
/-- **Two of one key in hand**: the later one can be acted on first. -/
theorem exists_swap [DecidableEq ι] (hfifo : Fifo s) {i : ι} (hidle : s.pc i = .idle)
    (hnot : ¬ Alone key s (.take i)) (hbuf : s.buf ≠ []) :
    ∃ a b j before after u v w, s.sent = before ++ a :: after ∧ b ∈ before ∧ key b = key a ∧
      Channel.move s (.take i) = some u ∧ Channel.move u (.act i) = some v ∧
      Channel.move v (.act j) = some w ∧ w.acts = s.acts ++ [a, b] := by
  obtain ⟨a, rest, hcons⟩ := List.exists_cons_of_ne_nil hbuf
  simp only [Alone, hcons, List.head?_cons, Option.mem_def, Option.some.injEq, forall_eq', not_forall,
    not_not] at hnot
  obtain ⟨j, b, hunacted, hkey⟩ := hnot
  have hholding := Pc.unacted_eq_some.mp hunacted
  obtain ⟨taken, hsent, hhand⟩ := hfifo
  have hji : j ≠ i := by
    rintro rfl
    rw [hidle] at hholding
    cases hholding
  refine ⟨a, b, j, taken, rest, { s with buf := rest, pc := Function.update s.pc i (.holding a) },
    ⟨s.sent, rest, s.closed, Function.update s.pc i (.acted a), s.acts ++ [a], s.done⟩,
    ⟨s.sent, rest, s.closed, Function.update (Function.update s.pc i (.acted a)) j (.acted b),
      s.acts ++ [a] ++ [b], s.done⟩, by rw [hsent, hcons], ?_, hkey, ?_, ?_, ?_, ?_⟩
  · exact hhand j b (by rw [hholding]; rfl)
  · simp [Channel.move, hidle, hcons]
  · simp [Channel.move]
  · simp [Channel.move, hji, hholding]
  · simp

end Order

end PqcMigration.Lib.Channel
