import ModuleLattice.Shake.Batch
import ModuleLattice.Proofs.CheckedWord
import Mathlib.Data.List.Nodup

/-!
# The lanes of a batched sponge

`Batch.lane` reads one lane of a batch as a state of its own, whichever layout the batch is kept in. Every step of the batched
sponge is seen through it: a step on a lane changes that lane as the single sponge would and leaves the other three alone
(`ActsOn`), a round over the lanes changes each of them by its own step, and the permutation permutes each of them. So the
batch absorbs and gives out, lane by lane, what four single sponges do, and `batch_eq_single` says so for all lengths of the
inputs and the outputs, together with the calls that are refused.
-/

namespace ModuleLattice.Shake

/-- Four values that are all the same. -/
def Agree {α : Type} (v : Vector α 4) : Prop := ∀ i j : Fin 4, v.get i = v.get j

/-- The block a reader gives out after `m` others. -/
def Reader.block (f : State → State) : Nat → Reader → Bytes
  | 0, r => (r.squeezeBlock f).1
  | m + 1, r => Reader.block f m (r.squeezeBlock f).2

/-- The blocks a batch reader gives out, one for each lane, after `m` others. -/
def BatchReader.blocks (f : State → State) : Nat → BatchReader → Vector Bytes 4
  | 0, r => (r.squeezeBlocks f).1
  | m + 1, r => BatchReader.blocks f m (r.squeezeBlocks f).2

namespace Batch

/-! ## Lanes and words -/

theorem get_lane (b : Batch) (l : Fin 4) (i : Fin 25) : (b.lane l).get i = b.word l i := get_ofFn _ i

theorem lane_zero (layout : Layout) (l : Fin 4) : (zero layout).lane l = State.zero := by
  ext i hi
  cases layout <;> simp [lane, word, zero, State.zero]

/-- The permutation permutes every lane. -/
theorem lane_permute (f : State → State) (b : Batch) (l : Fin 4) : (b.permute f).lane l = f (b.lane l) := by
  ext i hi
  cases b with
  | byState states =>
    have hstate : (Batch.byState states).lane l = states.get l := by
      ext j hj
      simp [lane, word]
    rw [hstate]
    simp [permute, lane, word]
  | byWord words => simp [permute, lane, word]

/-- A function on vectors of words that permutes every lane is the permutation of a batch kept word by word, and no other
function does. -/
theorem permute_byWord_iff (f : State → State) (f4 : Vector (Vector UInt64 4) 25 → Vector (Vector UInt64 4) 25) :
    (∀ words l, (Batch.byWord (f4 words)).lane l = f ((Batch.byWord words).lane l)) ↔
      ∀ words, (Batch.byWord words).permute f = .byWord (f4 words) := by
  constructor
  · intro h words
    refine congrArg Batch.byWord ?_
    ext i hi l hl
    have hword := congrArg (fun s : State => s.get ⟨i, hi⟩) (h words ⟨l, hl⟩)
    simp only [get_lane] at hword
    simpa [word, lane] using congrArg UInt64.toNat hword.symm
  · intro h words l
    rw [← h words]
    exact lane_permute f _ l

/-! ## Steps on one lane -/

/-- A step on a batch that works on one lane as `g` works on a state, and leaves the other lanes alone. -/
def ActsOn (step : Batch → Batch) (l : Fin 4) (g : State → State) : Prop :=
  ∀ b l', (step b).lane l' = if l' = l then g (b.lane l) else b.lane l'

/-- Steps on the same lane, one after the other. -/
theorem ActsOn.comp {step step' : Batch → Batch} {l : Fin 4} {g g' : State → State} (h' : ActsOn step' l g')
    (h : ActsOn step l g) : ActsOn (fun b => step' (step b)) l fun s => g' (g s) := by
  intro b l'
  rw [h' (step b) l', h b l, h b l', if_pos rfl]
  split <;> rfl

/-- A word added in a lane. -/
theorem actsOn_xorWord (l : Fin 4) (i : Fin 25) (w : UInt64) :
    ActsOn (fun b => b.xorWord l i w) l fun s => s.set i (s.get i ^^^ w) i.isLt := by
  intro b l'
  ext k hk
  cases b with
  | byState states =>
    by_cases hlane : l' = l
    · subst hlane
      simp [lane, word, xorWord, Vector.getElem_set]
    · have hval : l.val ≠ l'.val := fun h => hlane (Fin.ext h.symm)
      simp [lane, word, xorWord, hlane, hval]
  | byWord words =>
    by_cases hlane : l' = l
    · subst hlane
      by_cases hplace : i.val = k <;> simp [lane, word, xorWord, Vector.getElem_set, hplace]
    · have hval : l.val ≠ l'.val := fun h => hlane (Fin.ext h.symm)
      by_cases hplace : i.val = k <;> simp [lane, word, xorWord, Vector.getElem_set, hplace, hlane, hval]

/-- A byte added in a lane. -/
theorem actsOn_xorByte (l : Fin 4) (i : Nat) (byte : UInt8) :
    ActsOn (fun b => b.xorByte l i byte) l fun s => s.xorByte i byte := by
  intro b l'
  by_cases hi : i / 8 < 25
  · have hstep := actsOn_xorWord l ⟨i / 8, hi⟩ (placed byte i) b l'
    simp only [xorByte, State.xorByte, dif_pos hi]
    exact hstep
  · simp only [xorByte, State.xorByte, dif_neg hi]
    split
    · rename_i hlane
      rw [hlane]
    · rfl

/-- Bytes added in a lane. -/
theorem actsOn_xorBytesFrom (l : Fin 4) (i : Nat) (bs : Bytes) :
    ActsOn (fun b => b.xorBytesFrom l i bs) l fun s => s.xorBytesFrom i bs := by
  induction bs generalizing i with
  | nil =>
    intro b l'
    simp only [xorBytesFrom, State.xorBytesFrom]
    split
    · rename_i hlane
      rw [hlane]
    · rfl
  | cons byte bs ih => exact (ih (i + 1)).comp (actsOn_xorByte l i byte)

/-- A round over some lanes leaves the other lanes alone. -/
theorem lane_foldl_of_not_mem {step : Batch → Fin 4 → Batch} {g : Fin 4 → State → State}
    (h : ∀ l, ActsOn (fun b => step b l) l (g l)) {lanes : List (Fin 4)} {l : Fin 4} (hl : l ∉ lanes) (b : Batch) :
    (lanes.foldl step b).lane l = b.lane l := by
  induction lanes generalizing b with
  | nil => rfl
  | cons first lanes ih =>
    obtain ⟨hfirst, hrest⟩ := List.ne_and_not_mem_of_not_mem_cons hl
    rw [List.foldl_cons, ih hrest, h first b l, if_neg hfirst]

/-- A round over some lanes, each of them visited once, changes each of them by its own step. -/
theorem lane_foldl {step : Batch → Fin 4 → Batch} {g : Fin 4 → State → State} (h : ∀ l, ActsOn (fun b => step b l) l (g l))
    {lanes : List (Fin 4)} (hlanes : lanes.Nodup) {l : Fin 4} (hl : l ∈ lanes) (b : Batch) :
    (lanes.foldl step b).lane l = g l (b.lane l) := by
  induction lanes generalizing b with
  | nil => exact absurd hl List.not_mem_nil
  | cons first lanes ih =>
    obtain ⟨hfirst, hrest⟩ := List.nodup_cons.1 hlanes
    rw [List.foldl_cons]
    rcases List.mem_cons.1 hl with rfl | hl
    · rw [lane_foldl_of_not_mem h hfirst, h l b l, if_pos rfl]
    · have hother : l ≠ first := fun heq => hfirst (heq ▸ hl)
      rw [ih hrest hl, h first b l, if_neg hother]

/-- A round over the lanes changes each of them by its own step. -/
theorem lane_forLanes {step : Batch → Fin 4 → Batch} {g : Fin 4 → State → State}
    (h : ∀ l, ActsOn (fun b => step b l) l (g l)) (b : Batch) (l : Fin 4) : (b.forLanes step).lane l = g l (b.lane l) :=
  lane_foldl h (List.nodup_finRange 4) (List.mem_finRange l) b

/-! ## The sponge -/

/-- What is absorbed by a batch from `offset` on is absorbed in each lane by a single sponge. -/
theorem lane_absorbFrom (f : State → State) (rate : Rate) {inputs : Vector Bytes 4}
    (hlen : ∀ l : Fin 4, (inputs.get l).length = (inputs.get 0).length) (offset : Nat) (b : Batch) (l : Fin 4) :
    (absorbFrom f rate inputs offset b).lane l = Shake.absorbFrom f rate (b.lane l) ((inputs.get l).drop offset) := by
  fun_induction absorbFrom f rate inputs offset b with
  | case1 offset b hfull b' ih =>
    have hlong : rate.bytes ≤ ((inputs.get l).drop offset).length := by
      rw [List.length_drop, hlen l]
      omega
    have hblock : b'.lane l = (b.lane l).xorBytes (((inputs.get l).drop offset).take rate.bytes) :=
      lane_forLanes (fun l => actsOn_xorBytesFrom l 0 (((inputs.get l).drop offset).take rate.bytes)) b l
    conv_rhs => rw [Shake.absorbFrom, if_pos hlong, List.drop_drop]
    rw [ih, lane_permute, hblock]
  | case2 offset b hlast tail =>
    have htail : tail = ((inputs.get l).drop offset).length := by
      rw [List.length_drop, hlen l]
    have hshort : ¬rate.bytes ≤ ((inputs.get l).drop offset).length := by
      have := rate.pos
      omega
    rw [Shake.absorbFrom, if_neg hshort, ← htail]
    exact lane_forLanes (fun l => (actsOn_xorByte l (rate.bytes - 1) finalBit).comp
      ((actsOn_xorByte l tail paddingByte).comp (actsOn_xorBytesFrom l 0 ((inputs.get l).drop offset)))) b l

/-- The bytes at the front of a lane. -/
theorem bytes_eq_lane (b : Batch) (l : Fin 4) (n : Nat) : b.bytes l n = (b.lane l).bytes n := by
  refine List.map_congr_left ?_
  intro i _
  unfold byteAt State.byteAt
  split
  · rename_i hi
    rw [← get_lane]
    rfl
  · rfl

/-- What a batch gives out is given out in each lane by a single sponge. -/
theorem get_squeeze (f : State → State) (rate : Rate) (n : Nat) (b : Batch) (l : Fin 4) :
    (squeeze f rate n b).get l = Shake.squeeze f rate n (b.lane l) := by
  fun_induction squeeze f rate n b with
  | case1 b => rw [Shake.squeeze, if_pos rfl]; simp
  | case2 n b hn b' rest ih =>
    conv_rhs => rw [Shake.squeeze, if_neg hn]
    rw [get_ofFn, ih, bytes_eq_lane, lane_permute]

/-- In each lane of a fresh batch a single sponge has taken in its input. -/
theorem lane_absorbFrom_zero (layout : Layout) (f : State → State) (rate : Rate) {inputs : Vector Bytes 4}
    (hlen : ∀ l : Fin 4, (inputs.get l).length = (inputs.get 0).length) (l : Fin 4) :
    (absorbFrom f rate inputs 0 (zero layout)).lane l = Shake.absorb f rate (inputs.get l) := by
  rw [lane_absorbFrom f rate hlen, lane_zero, List.drop_zero, Shake.absorb]

end Batch

/-! ## Batches and single sponges -/

/-- Four values are all the same if they are the same as the first. -/
theorem agree_iff {α : Type} (v : Vector α 4) : Agree v ↔ ∀ l : Fin 4, v.get l = v.get 0 :=
  ⟨fun h l => h l 0, fun h i j => (h i).trans (h j).symm⟩

/-- Four inputs are of one length if they are as long as the first. -/
theorem agree_lengths_iff (inputs : Vector Bytes 4) :
    Agree (inputs.map List.length) ↔ ∀ l : Fin 4, (inputs.get l).length = (inputs.get 0).length := by
  simp only [agree_iff, get_map]

/-- A batch of inputs of one length is absorbed, and each lane has absorbed its input. -/
theorem Batch.absorb_lanes (layout : Layout) (f : State → State) (rate : Rate) {inputs : Vector Bytes 4} (h : Agree (inputs.map List.length)) :
    ∃ c, Batch.absorb layout f rate inputs = .ok c ∧ ∀ l, c.lane l = Shake.absorb f rate (inputs.get l) := by
  have hlen := (agree_lengths_iff inputs).1 h
  refine ⟨_, ?_, Batch.lane_absorbFrom_zero layout f rate hlen⟩
  rw [Batch.absorb]
  exact ensure_bind_eq_ok_iff.2 ⟨hlen, rfl⟩

/-- The blocks of a batch reader are those of readers of its lanes. -/
theorem BatchReader.get_blocks (f : State → State) (m : Nat) (r : BatchReader) (l : Fin 4) :
    (r.blocks f m).get l = Reader.block f m ⟨r.state.lane l⟩ := by
  induction m generalizing r with
  | zero => rw [blocks, Reader.block, squeezeBlocks, get_ofFn, Batch.bytes_eq_lane, Batch.lane_permute, Reader.squeezeBlock]
  | succ m ih => rw [blocks, ih, Reader.block, squeezeBlocks, Batch.lane_permute, Reader.squeezeBlock]

/-- A batch is absorbed exactly if the inputs are of one length. -/
theorem BatchReader.absorb_eq_ok_iff (layout : Layout) (f : State → State) (inputs : Vector Bytes 4) (r : BatchReader) :
    BatchReader.absorb layout f inputs = .ok r ↔
      Agree (inputs.map List.length) ∧ r = ⟨Batch.absorbFrom f rate128 inputs 0 (Batch.zero layout)⟩ := by
  rw [agree_lengths_iff, BatchReader.absorb, Batch.absorb, bind_assoc, ensure_bind_eq_ok_iff, pure_bind]
  simp [pure, Except.pure, eq_comm]

/-- Every lane of a batched sponge is a single sponge, in both layouts and for every function in place of the permutation; in
the layout by words, that function is the only one on vectors of words that permutes every lane. Four inputs of one length
give, in lane `l`, the SHAKE256 output of input `l` if the lengths asked for are one, and at every call the next SHAKE128 block
of input `l`. Lengths that differ are refused, those of the outputs before those of the inputs, and nothing else is. -/
theorem batch_eq_single (layout : Layout) (f : State → State) (lengths : Vector Nat 4) (inputs : Vector Bytes 4) :
    (∀ outputs, shake256Batch layout f lengths inputs = .ok outputs ↔
        Agree lengths ∧ Agree (inputs.map List.length) ∧
          ∀ l, outputs.get l = shake256 f (lengths.get l) (inputs.get l)) ∧
      (∀ e, shake256Batch layout f lengths inputs = .error e ↔
        ¬Agree lengths ∧ e = .laneOutputs ∨ Agree lengths ∧ ¬Agree (inputs.map List.length) ∧ e = .laneInputs) ∧
      ((∃ r, BatchReader.absorb layout f inputs = .ok r ∧
          ∀ m l, (r.blocks f m).get l = (Reader.absorb f (inputs.get l)).block f m) ↔ Agree (inputs.map List.length)) ∧
      (∀ e, BatchReader.absorb layout f inputs = .error e ↔ ¬Agree (inputs.map List.length) ∧ e = .laneInputs) ∧
      ∀ f4 : Vector (Vector UInt64 4) 25 → Vector (Vector UInt64 4) 25,
        (∀ words l, (Batch.byWord (f4 words)).lane l = f ((Batch.byWord words).lane l)) ↔
          ∀ words, (Batch.byWord words).permute f = .byWord (f4 words) := by
  refine ⟨?_, ?_, ?_, ?_, Batch.permute_byWord_iff f⟩
  · intro outputs
    rw [agree_lengths_iff, agree_iff, shake256Batch, ensure_bind_eq_ok_iff, Batch.absorb, bind_assoc, ensure_bind_eq_ok_iff,
      pure_bind]
    refine and_congr_right fun hout => and_congr_right fun hin => ?_
    have hlane (l : Fin 4) : ((Batch.absorbFrom f rate256 inputs 0 (Batch.zero layout)).squeeze f rate256 (lengths.get 0)).get l =
        shake256 f (lengths.get l) (inputs.get l) := by
      rw [Batch.get_squeeze, Batch.lane_absorbFrom_zero layout f rate256 hin, hout l, shake256]
    constructor
    · intro h
      cases h
      exact hlane
    · intro h
      refine congrArg Except.ok ?_
      ext1 i hi
      exact (hlane ⟨i, hi⟩).trans (h ⟨i, hi⟩).symm
  · intro e
    rw [agree_lengths_iff, agree_iff, shake256Batch, ensure_bind_eq_error_iff, Batch.absorb, bind_assoc,
      ensure_bind_eq_error_iff, pure_bind]
    simp [pure, Except.pure]
  · simp only [BatchReader.absorb_eq_ok_iff]
    constructor
    · rintro ⟨r, ⟨hin, -⟩, -⟩
      exact hin
    · intro hin
      refine ⟨_, ⟨hin, rfl⟩, ?_⟩
      intro m l
      rw [BatchReader.get_blocks, Reader.absorb, Batch.lane_absorbFrom_zero layout f rate128 ((agree_lengths_iff inputs).1 hin)]
  · intro e
    rw [agree_lengths_iff, BatchReader.absorb, Batch.absorb, bind_assoc, ensure_bind_eq_error_iff, pure_bind]
    simp [pure, Except.pure]

end ModuleLattice.Shake
