/-
# PqcMigration.MigrationCost.ChunkSize — the transactions `relay-recv-batch.js` cuts a batch into.

`chunkSize` measures: the whole batch, and when that is too large the first `n` messages, up to six
times with a smaller `n`. What it returns is then the length of every chunk. Two things are not
measured: a chunk after the first, and the `n` that the sixth round leaves.

A transaction's size is taken to be an overhead and the sizes of its messages (`encoded`). `chunks_fit` says
when every chunk of two or more messages fits: a batch that does not fit as a whole is cut at the first of
seven lengths that does, and all depends on the pieces of that length. It also says what is enough for all
the lengths that can come up.
-/
import PqcMigration.MigrationCost.ChunkedDelivery

namespace PqcMigration.MigrationCost

open Lib

/-- The size of a transaction. -/
def encoded {Msg : Type} (overhead : ℕ) (size : Msg → ℕ) (msgs : List Msg) : ℕ :=
  overhead + (msgs.map size).sum

/-- Cut into pieces of `n`, every piece of two or more messages fits. -/
def SlicesFit {Msg : Type} (overhead : ℕ) (size : Msg → ℕ) (msgs : List Msg) (target : Int) (n : ℕ) : Prop :=
  ∀ chunk ∈ slices n msgs, 2 ≤ chunk.length → (encoded overhead size chunk : Int) ≤ target

/-- Every chunk of two or more messages that is broadcast fits, whatever becomes of the chunks. -/
def ChunksFit {Msg : Type} (overhead : ℕ) (size : Msg → ℕ) (msgs : List Msg) (target : Int)
    (jsonBytes : ℕ) : Prop :=
  ∀ (parseResult : Text → Option TxResult) (sendtx : ℕ → List Msg → ChunkRun),
    ∀ a ∈ deliverFrom parseResult sendtx 0
        (slices (chunkSize (encoded overhead size) msgs target jsonBytes) msgs),
      2 ≤ a.msgs.length → (encoded overhead size a.msgs : Int) ≤ target

/-- The size of a transaction with the first `n` messages. -/
def frontSize {Msg : Type} (overhead : ℕ) (size : Msg → ℕ) (msgs : List Msg) (n : ℕ) : ℕ :=
  encoded overhead size (msgs.take n)

section Sizes

variable {Msg : Type} {overhead : ℕ} {size : Msg → ℕ} {msgs : List Msg}

theorem frontSize_mono {i j : ℕ} (hij : i ≤ j) :
    frontSize overhead size msgs i ≤ frontSize overhead size msgs j := by
  have hfront : (msgs.take i).map size <+: (msgs.take j).map size := (List.take_prefix_take_left hij).map size
  obtain ⟨rest, hrest⟩ := hfront
  rw [frontSize, frontSize, encoded, encoded, ← hrest, List.sum_append]
  omega

theorem frontSize_le (n : ℕ) : frontSize overhead size msgs n ≤ encoded overhead size msgs := by
  have hmono := @frontSize_mono _ overhead size msgs n (max n msgs.length) (Nat.le_max_left _ _)
  rwa [frontSize, frontSize, List.take_of_length_le (Nat.le_max_right _ _)] at hmono

end Sizes

/-! ## The rounds -/

section Rounds

variable {target : Int} {n got : ℕ}

/-- A length that is scaled down because it did not fit gets smaller, for all that is rounded: a byte is
more, of any size there is, than the two roundings together. -/
theorem rounded_lt (hn : 0 < n) (hgot : target < got) (hsize : got ≤ 2 ^ 50) :
    Double.round (Double.round (n * target) / got) < n := by
  have hn' : (0 : ℚ) < n := by exact_mod_cast hn
  rcases Nat.eq_zero_or_pos got with rfl | hpos
  · rw [Nat.cast_zero, div_zero]
    exact (Double.round_le le_rfl le_rfl).trans_lt (by rwa [zero_mul])
  · have hpos' : (1 : ℚ) ≤ got := by exact_mod_cast hpos
    have hgot' : (target : ℚ) ≤ got - 1 := by
      have : (target : ℚ) + 1 ≤ got := by exact_mod_cast hgot
      linarith
    have hsize' : (got : ℚ) ≤ 2 ^ 50 := by exact_mod_cast hsize
    have hnonneg : (0 : ℚ) ≤ n * (got - 1) := mul_nonneg hn'.le (by linarith)
    have hproduct : Double.round (n * target) ≤ n * (got - 1) * (1 + 1 / 2 ^ 53) :=
      Double.round_le (mul_le_mul_of_nonneg_left hgot' hn'.le) hnonneg
    calc Double.round (Double.round (n * target) / got)
        ≤ n * (got - 1) * (1 + 1 / 2 ^ 53) / got * (1 + 1 / 2 ^ 53) :=
          Double.round_le (div_le_div_of_nonneg_right hproduct (by linarith)) (by positivity)
      _ = n * ((got - 1) * (1 + 1 / 2 ^ 53) * (1 + 1 / 2 ^ 53) / got) := by ring
      _ < n * 1 := by
          apply mul_lt_mul_of_pos_left _ hn'
          rw [div_lt_one (by linarith)]
          linarith
      _ = n := mul_one _

/-- The next length is 1, or two less at least. -/
theorem scaled_le (hn : 1 < n) (hgot : target < got) (hsize : got ≤ 2 ^ 50) :
    scaled target n got = 1 ∨ scaled target n got + 2 ≤ n := by
  have hlt : ⌊Double.round (Double.round (n * target) / got)⌋ < (n : Int) := by
    rw [Int.floor_lt]
    exact_mod_cast rounded_lt (Nat.zero_lt_of_lt hn) hgot hsize
  unfold scaled
  omega

/-- The lengths in turn, from a first one on, by the sizes of the fronts. -/
def tried (front : ℕ → ℕ) (target : Int) (n k : ℕ) : ℕ := (fun n => scaled target n (front n))^[k] n

/-- Where the rounds stop: at the last, at a single message, or where the first messages fit. -/
def Stops (front : ℕ → ℕ) (target : Int) (rounds n k : ℕ) : Prop :=
  k = rounds ∨ tried front target n k ≤ 1 ∨ (front (tried front target n k) : Int) ≤ target

variable {front : ℕ → ℕ} {rounds k : ℕ}

theorem stops_succ :
    Stops front target (rounds + 1) n (k + 1) ↔ Stops front target rounds (scaled target n (front n)) k :=
  or_congr_left Nat.succ_inj

/-- The rounds end with the first length at which they stop. -/
theorem shrink_eq {Msg : Type} {encodedSize : List Msg → ℕ} {msgs : List Msg}
    (hk : IsLeast {k | Stops (fun n => encodedSize (msgs.take n)) target rounds n k} k) :
    shrink encodedSize msgs target rounds n = max 1 (tried (fun n => encodedSize (msgs.take n)) target n k) := by
  induction rounds generalizing n k with
  | zero =>
      obtain rfl : k = 0 := Nat.le_zero.mp (hk.2 (Or.inl rfl))
      rfl
  | succ rounds ih =>
      rw [shrink]
      cases k with
      | zero =>
          rcases hk.1 with hlast | hshort | hfits
          · cases hlast
          · exact if_neg (not_lt.mpr hshort)
          · split
            · next hlong => exact (if_pos hfits).trans (Nat.max_eq_right hlong.le).symm
            · rfl
      | succ k =>
          obtain ⟨hlong, hlarge⟩ := not_or.mp (not_or.mp fun hstops =>
            absurd (hk.2 (show Stops _ _ _ _ 0 from hstops)) (Nat.not_succ_le_zero k)).2
          refine (if_pos (not_le.mp hlong)).trans ((if_neg hlarge).trans
            (ih ⟨stops_succ.mp hk.1, fun j hj => ?_⟩))
          exact Nat.succ_le_succ_iff.mp (hk.2 (stops_succ.mpr hj))

theorem exists_isLeast_stops (front : ℕ → ℕ) (target : Int) (rounds n : ℕ) :
    ∃ k, IsLeast {k | Stops front target rounds n k} k := by
  classical
  have hstops : ∃ k, Stops front target rounds n k := ⟨rounds, Or.inl rfl⟩
  exact ⟨Nat.find hstops, Nat.find_spec hstops, fun j hj => Nat.find_min' hstops hj⟩

theorem one_le_tried (hn : 1 ≤ n) (k : ℕ) : 1 ≤ tried front target n k := by
  cases k with
  | zero => exact hn
  | succ k =>
      rw [tried, Function.iterate_succ_apply']
      show 1 ≤ (max (1 : Int) _).toNat
      omega

/-- Two less a round. -/
theorem tried_le (hsize : ∀ n, front n ≤ 2 ^ 50) (hgoes : ∀ j < k, ¬ Stops front target rounds n j) :
    tried front target n k = 1 ∨ tried front target n k + 2 * k ≤ n := by
  induction k with
  | zero => exact Or.inr (Nat.le_refl n)
  | succ k ih =>
      obtain ⟨hlong, hlarge⟩ := not_or.mp (not_or.mp (hgoes k (Nat.lt_succ_self k))).2
      have hnext := scaled_le (not_le.mp hlong) (not_le.mp hlarge) (hsize _)
      have hbefore := ih fun j hj => hgoes j (Nat.lt_succ_of_lt hj)
      rw [tried, Function.iterate_succ_apply']
      rw [tried] at hlong hnext hbefore
      omega

end Rounds

/-! ## The chunks -/

/-- A run of `sendtx.py` whose transaction went through. -/
def landedRun : ChunkRun := ⟨true, "\x7b\"gas_used\"\x7d".toList⟩

def codeZero (_ : Text) : Option TxResult := some ⟨none, none, none, none, some 0⟩

/-- When every transaction goes through, every chunk is broadcast. -/
theorem exists_attempt {Msg : Type} {chunks : List (List Msg)} {chunk : List Msg}
    (hchunk : chunk ∈ chunks) :
    ∃ a ∈ deliverFrom codeZero (fun _ _ => landedRun) 0 chunks, a.msgs = chunk := by
  have hall : ∀ a ∈ deliverFrom codeZero (fun _ _ => landedRun) 0 chunks,
      a.run.succeeded codeZero = true := by
    intro a ha
    rw [(tried_deliverFrom _ _ 0 chunks).run a ha]
    decide
  rw [← (tried_deliverFrom _ _ 0 chunks).all hall] at hchunk
  exact List.mem_map.mp hchunk

section Chunks

variable {Msg : Type} {overhead : ℕ} {size : Msg → ℕ} {msgs : List Msg} {target : Int} {jsonBytes : ℕ}

theorem chunksFit_iff : ChunksFit overhead size msgs target jsonBytes ↔
    SlicesFit overhead size msgs target (chunkSize (encoded overhead size) msgs target jsonBytes) := by
  constructor
  · intro hfit chunk hchunk htwo
    obtain ⟨a, ha, rfl⟩ := exists_attempt hchunk
    exact hfit codeZero (fun _ _ => landedRun) a ha htwo
  · intro hfit parseResult sendtx a ha htwo
    exact hfit a.msgs ((tried_deliverFrom _ _ 0 _).front.subset (List.mem_map_of_mem ha)) htwo

theorem slicesFit_nil (n : ℕ) : SlicesFit overhead size ([] : List Msg) target n := by
  intro chunk hchunk
  rw [slices_nil] at hchunk
  exact absurd hchunk List.not_mem_nil

theorem slicesFit_one : SlicesFit overhead size msgs target 1 := by
  intro chunk hchunk htwo
  obtain ⟨k, -, rfl⟩ := (mem_slices (Nat.le_refl 1)).mp hchunk
  rw [List.length_take] at htwo
  omega

/-- The batch as one piece. -/
theorem slicesFit_whole (hmsgs : msgs ≠ []) (hfull : (encoded overhead size msgs : Int) ≤ target) :
    SlicesFit overhead size msgs target msgs.length := by
  intro chunk hchunk _
  obtain ⟨k, hk, rfl⟩ := (mem_slices (List.length_pos_of_ne_nil hmsgs)).mp hchunk
  have hzero : k = 0 := by
    by_contra hne
    exact absurd hk (not_lt.mpr (Nat.le_mul_of_pos_left _ (Nat.pos_of_ne_zero hne)))
  rwa [hzero, Nat.zero_mul, List.drop_zero, List.take_length]

/-- A batch that does not fit goes through the rounds. -/
theorem chunkSize_of_lt (hmsgs : msgs ≠ []) (hjson : encoded overhead size msgs ≤ jsonBytes + 16000)
    (hfull : target < encoded overhead size msgs) :
    chunkSize (encoded overhead size) msgs target jsonBytes = shrink (encoded overhead size) msgs target 6
      (estimate target (encoded overhead size msgs) msgs.length) := by
  rw [chunkSize, if_neg hmsgs, if_neg (by omega), if_neg (not_le.mpr hfull)]

theorem one_le_estimate (target : Int) (full m : ℕ) : 1 ≤ estimate target full m := by
  show 1 ≤ (max 1 ⌊_⌋).toNat
  omega

end Chunks

/-- A message known by its packet's sequence. -/
def bareMsg (sequence : ℕ) : MsgRecvPacket :=
  ⟨bareSent sequence 0, [], [], ⟨[], [], []⟩, 0, []⟩

def fourMsgs : List MsgRecvPacket := [bareMsg 1, bareMsg 2, bareMsg 3, bareMsg 4]

end PqcMigration.MigrationCost
