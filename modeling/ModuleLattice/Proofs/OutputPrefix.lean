import ModuleLattice.Sampling.Uniform
import ModuleLattice.Proofs.BatchedSponge
import ModuleLattice.Proofs.StandardSponge

/-!
# Output in one piece and in blocks

The sponge gives out its bytes in two ways: all at once, with a last block that may be cut, or one whole block at every call of
a reader. Both permute before each block, so they give out one stream of bytes, and a shorter output is the beginning of a
longer one (`isPrefix_squeeze`), wherever in a block it ends. Batches of mixed widths rest on this: their lanes take more bytes
than the narrower width needs.
-/

namespace ModuleLattice.Shake

variable {f : State → State} {rate : Rate}

/-- As many bytes are given out as are asked for. -/
theorem length_squeeze (f : State → State) (rate : Rate) (n : Nat) (s : State) : (squeeze f rate n s).length = n := by
  rw [Standard.squeeze_eq_standard]
  exact Standard.length_squeeze f rate.pos rate.le_state n (f s)

/-- Output of at least a block begins with a block and goes on from the permuted state. -/
theorem squeeze_of_block_le {n : Nat} (h : rate.bytes ≤ n) (s : State) :
    squeeze f rate n s = (f s).bytes rate.bytes ++ squeeze f rate (n - rate.bytes) (f s) := by
  have hpos := rate.pos
  rw [squeeze, if_neg (by omega), Nat.min_eq_right h]

/-- Output of less than a block is the beginning of a block. -/
theorem squeeze_of_lt_block {n : Nat} (h : n < rate.bytes) (s : State) : squeeze f rate n s = (f s).bytes n := by
  have hnone : n - rate.bytes = 0 := by omega
  have hend : squeeze f rate 0 (f s) = [] := by rw [squeeze, if_pos rfl]
  rw [squeeze]
  dsimp only
  rw [Nat.min_eq_left h.le, hnone, hend, List.append_nil]
  split
  · rename_i hzero
    rw [hzero]
    rfl
  · rfl

/-- The first bytes of a state are the beginning of more bytes of it. -/
theorem State.isPrefix_bytes (s : State) {m n : Nat} (h : m ≤ n) : s.bytes m <+: s.bytes n := by
  rw [State.bytes, State.bytes]
  refine List.IsPrefix.map _ ?_
  rw [← Nat.min_eq_left h, ← List.take_range]
  exact List.take_prefix m _

/-- A shorter output is the beginning of a longer one, whatever position in a block it ends at. -/
theorem isPrefix_squeeze (f : State → State) (rate : Rate) {m n : Nat} (h : m ≤ n) (s : State) :
    squeeze f rate m s <+: squeeze f rate n s := by
  induction n using Nat.strongRecOn generalizing m s with
  | ind n ih =>
    have hpos := rate.pos
    by_cases hn : n < rate.bytes
    · rw [squeeze_of_lt_block hn, squeeze_of_lt_block (h.trans_lt hn)]
      exact State.isPrefix_bytes (f s) h
    · rw [squeeze_of_block_le (Nat.le_of_not_lt hn) s]
      by_cases hm : m < rate.bytes
      · rw [squeeze_of_lt_block hm]
        exact (State.isPrefix_bytes (f s) hm.le).trans (List.prefix_append _ _)
      · rw [squeeze_of_block_le (Nat.le_of_not_lt hm) s]
        exact (List.prefix_append_right_inj _).2 (ih (n - rate.bytes) (by omega) (by omega) (f s))

/-- The blocks of a reader in one string are the output of as many bytes. -/
theorem blocks_eq_squeeze (f : State → State) (n : Nat) (r : Reader) :
    (Uniform.blocks f n r).1 = squeeze f rate128 (rate128.bytes * n) r.state := by
  induction n generalizing r with
  | zero => rw [Nat.mul_zero, squeeze, if_pos rfl]; rfl
  | succ n ih =>
    have hrest : rate128.bytes * (n + 1) - rate128.bytes = rate128.bytes * n := by rw [Nat.mul_succ, Nat.add_sub_cancel]
    rw [squeeze_of_block_le (Nat.le_mul_of_pos_right _ n.succ_pos), hrest]
    exact congrArg ((f r.state).bytes rate128.bytes ++ ·) (ih ⟨f r.state⟩)

/-- Four inputs of one length and one number of bytes for all: the batch answers, and each lane has the output of its input. -/
theorem shake256Batch_eq_map (layout : Layout) (f : State → State) (n : Nat) {inputs : Vector Bytes 4}
    (h : Agree (inputs.map List.length)) :
    shake256Batch layout f (Vector.replicate 4 n) inputs = .ok (inputs.map (shake256 f n)) := by
  have hin := (agree_lengths_iff inputs).1 h
  rw [shake256Batch, ensure_bind_eq_ok_iff, Batch.absorb, bind_assoc, ensure_bind_eq_ok_iff, pure_bind]
  refine ⟨by simp, hin, congrArg Except.ok ?_⟩
  ext1 i hi
  have hlane := Batch.get_squeeze f rate256 n (Batch.absorbFrom f rate256 inputs 0 (Batch.zero layout)) ⟨i, hi⟩
  rw [Batch.lane_absorbFrom_zero layout f rate256 hin] at hlane
  simpa [shake256] using hlane

/-- Output is one stream of bytes, however it is taken. For every function in place of the permutation, `m` bytes of SHAKE128 are
the first `m` bytes of as many blocks of a reader as hold them; and for `m ≤ n`, the output of `m` bytes is the beginning of the
output of `n` bytes, for SHAKE128, for SHAKE256, and in every lane of a batch of inputs of one length, in both layouts. -/
theorem output_is_one_stream (f : State → State) (layout : Layout) (input : Bytes) (inputs : Vector Bytes 4) (m n : Nat) :
    (m ≤ 168 * n → (shake128 f m input).length = m ∧
        shake128 f m input = (Uniform.blocks f n (Reader.absorb f input)).1.take m) ∧
      (m ≤ n → shake128 f m input <+: shake128 f n input ∧ shake256 f m input <+: shake256 f n input) ∧
      (m ≤ n → Agree (inputs.map List.length) →
        ∃ short long, shake256Batch layout f (Vector.replicate 4 m) inputs = .ok short ∧
          shake256Batch layout f (Vector.replicate 4 n) inputs = .ok long ∧
          ∀ l : Fin 4, (short.get l).length = m ∧ short.get l <+: long.get l) := by
  refine ⟨?_, ?_, ?_⟩
  · intro h
    have hlen : (shake128 f m input).length = m := length_squeeze f rate128 m _
    have hprefix := isPrefix_squeeze f rate128 h (absorb f rate128 input)
    refine ⟨hlen, ?_⟩
    have htake := List.prefix_iff_eq_take.1 hprefix
    rw [length_squeeze] at htake
    rw [blocks_eq_squeeze]
    exact htake
  · intro h
    exact ⟨isPrefix_squeeze f rate128 h _, isPrefix_squeeze f rate256 h _⟩
  · intro h hin
    refine ⟨_, _, shake256Batch_eq_map layout f m hin, shake256Batch_eq_map layout f n hin, ?_⟩
    intro l
    rw [get_map, get_map]
    exact ⟨length_squeeze f rate256 m _, isPrefix_squeeze f rate256 h _⟩

/-- Four inputs of two bytes that differ in the last one. -/
def fourInputs : Vector Bytes 4 := Vector.ofFn fun l => [7, UInt8.ofNat l.val]

/-- 300 bytes end inside the second block of a reader; and where 192 bytes are taken for each lane of a batch, the first 128 are
those that a shorter batch gives out. -/
theorem output_of_two_blocks :
    300 ≤ 168 * 2 ∧ 128 ≤ 192 ∧ Agree (fourInputs.map List.length) ∧
      shake128 Keccak.permute 300 [7] = (Uniform.blocks Keccak.permute 2 (Reader.absorb Keccak.permute [7])).1.take 300 ∧
      shake256 Keccak.permute 128 [7] <+: shake256 Keccak.permute 192 [7] ∧
      ∃ short long, shake256Batch .byWord Keccak.permute (Vector.replicate 4 128) fourInputs = .ok short ∧
        shake256Batch .byWord Keccak.permute (Vector.replicate 4 192) fourInputs = .ok long ∧
        ∀ l : Fin 4, (short.get l).length = 128 ∧ short.get l <+: long.get l := by
  have hin : Agree (fourInputs.map List.length) := by
    intro i j
    simp [fourInputs]
  have hblocks := (output_is_one_stream Keccak.permute .byWord [7] fourInputs 300 2).1 (by decide)
  obtain ⟨-, hsingle, hbatch⟩ := output_is_one_stream Keccak.permute .byWord [7] fourInputs 128 192
  exact ⟨by decide, by decide, hin, hblocks.2, (hsingle (by decide)).2, hbatch (by decide) hin⟩

end ModuleLattice.Shake
