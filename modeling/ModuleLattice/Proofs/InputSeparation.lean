import ModuleLattice.Sampling.Noise
import ModuleLattice.Sampling.Uniform
import ModuleLattice.Proofs.StandardSponge
import ModuleLattice.Proofs.BatchedSponge
import ModuleLattice.Proofs.KeccakInjective

/-!
# Inputs that leave different states

Absorbing is a fold over blocks, and a block can be told from the state it is added to. So two inputs that differ in one block only
are never merged: if the block is the last one, the padding in it can be taken off again (`Standard.pad_injective`), and if it is a
whole one, the permutation and all that follows keep the states apart, provided that the permutation does
(`absorbFrom_injective`). What stands before the block leads both inputs to the same state (`exists_absorbFrom_append`).
`absorb_separates_inputs` says so for single sponges and for the lanes of batches, and with it that no two derivations of the
samplers begin their output in the same state.
-/

namespace ModuleLattice.Shake

/-- Where the longer of two short inputs ends, its padding has a byte of which the other one's has nothing. -/
theorem Standard.length_le_of_pad_eq {rate : Nat} {s t : Bytes} (hs : s.length < rate) (ht : t.length < rate)
    (h : Standard.pad rate s = Standard.pad rate t) : t.length ≤ s.length := by
  by_contra hlt
  have hbyte := congrArg (fun block : Bytes => block.getD t.length 0) h
  have hplace : t.length ≠ s.length := by omega
  simp only [Standard.getD_pad hs, Standard.getD_pad ht, UInt8.xor_left_inj, if_neg hplace, if_true,
    List.getD_eq_default s 0 (Nat.le_of_not_le hlt), List.getD_eq_default t 0 le_rfl, UInt8.xor_zero] at hbyte
  exact absurd hbyte (by decide)

/-- The padding of a last block can be taken off: short inputs with the same padded block are the same. -/
theorem Standard.pad_injective {rate : Nat} {s t : Bytes} (hs : s.length < rate) (ht : t.length < rate)
    (h : Standard.pad rate s = Standard.pad rate t) : s = t := by
  have hlen : s.length = t.length := le_antisymm (length_le_of_pad_eq ht hs h.symm) (length_le_of_pad_eq hs ht h)
  unfold Standard.pad at h
  rw [hlen] at h
  exact List.append_cancel_right h

/-! ## Absorbing from a state on -/

variable (f : State → State) (rate : Rate)

/-- A whole block is added to the state, and the state is permuted. -/
theorem absorbFrom_block (s : State) {block : Bytes} (h : block.length = rate.bytes) (rest : Bytes) :
    absorbFrom f rate s (block ++ rest) = absorbFrom f rate (f (s.xorBytes block)) rest := by
  have hfull : rate.bytes ≤ (block ++ rest).length := by
    rw [List.length_append]
    omega
  rw [absorbFrom, if_pos hfull, List.take_left' h, List.drop_left' h]

/-- An input that is shorter than a block is padded and added to the state. -/
theorem absorbFrom_of_lt (s : State) {input : Bytes} (h : input.length < rate.bytes) :
    absorbFrom f rate s input = s.xorBytes (Standard.pad rate.bytes input) := by
  rw [absorbFrom, if_neg (Nat.not_le_of_lt h), Standard.pad_in_place s h]

/-- Whole blocks in front of an input lead to a state from which the rest is absorbed. -/
theorem exists_absorbFrom_append (s : State) {front : Bytes} (h : rate.bytes ∣ front.length) :
    ∃ s', ∀ rest, absorbFrom f rate s (front ++ rest) = absorbFrom f rate s' rest := by
  obtain ⟨n, hn⟩ := h
  induction n generalizing s front with
  | zero =>
    obtain rfl := List.length_eq_zero_iff.1 hn
    exact ⟨s, fun rest => rfl⟩
  | succ n ih =>
    rw [Nat.mul_succ] at hn
    have hblock : (front.take rate.bytes).length = rate.bytes := by
      rw [List.length_take]
      omega
    have hfront : (front.drop rate.bytes).length = rate.bytes * n := by
      rw [List.length_drop]
      omega
    obtain ⟨s', hs'⟩ := ih (f (s.xorBytes (front.take rate.bytes))) hfront
    refine ⟨s', fun rest => ?_⟩
    rw [← hs' rest, ← absorbFrom_block f rate s hblock, ← List.append_assoc, List.take_append_drop]

/-- From different states the same input leads to different states, if the permutation keeps states apart. -/
theorem absorbFrom_injective {f : State → State} (hf : Function.Injective f) (input : Bytes) :
    Function.Injective fun s => absorbFrom f rate s input := by
  have hsize := rate.le_state
  have hpos := rate.pos
  induction hn : input.length using Nat.strongRecOn generalizing input with
  | ind n ih =>
    intro s t h
    dsimp only at h
    by_cases hshort : input.length < rate.bytes
    · rw [absorbFrom_of_lt f rate s hshort, absorbFrom_of_lt f rate t hshort] at h
      exact State.xorBytes_injective (by rw [Standard.length_pad hshort]; exact hsize) h
    · have hblock : (input.take rate.bytes).length = rate.bytes := by
        rw [List.length_take]
        omega
      rw [← List.take_append_drop rate.bytes input, absorbFrom_block f rate s hblock, absorbFrom_block f rate t hblock] at h
      have hstate := ih (input.drop rate.bytes).length (by rw [List.length_drop]; omega) (input.drop rate.bytes) rfl h
      exact State.xorBytes_injective (by omega) (hf hstate)

/-! ## Inputs that differ in one block -/

/-- Inputs that differ in their last block, behind whole blocks they share. -/
theorem absorb_append_ne (front : Bytes) {s t : Bytes} (hfront : rate.bytes ∣ front.length) (hs : s.length < rate.bytes)
    (ht : t.length < rate.bytes) (h : s ≠ t) : absorb f rate (front ++ s) ≠ absorb f rate (front ++ t) := by
  obtain ⟨u, hu⟩ := exists_absorbFrom_append f rate State.zero hfront
  rw [absorb, absorb, hu, hu, absorbFrom_of_lt f rate u hs, absorbFrom_of_lt f rate u ht]
  intro hstate
  have hlen := Standard.length_pad hs
  refine h (Standard.pad_injective hs ht (State.eq_of_xorBytes_eq ?_ ?_ hstate))
  · rw [hlen, Standard.length_pad ht]
  · rw [hlen]
    exact rate.le_state

/-- Inputs that differ in one whole block, behind whole blocks and in front of a rest they share. -/
theorem absorb_block_ne {f : State → State} (hf : Function.Injective f) {front s t : Bytes} (hfront : rate.bytes ∣ front.length)
    (hs : s.length = rate.bytes) (ht : t.length = rate.bytes) (h : s ≠ t) (rest : Bytes) :
    absorb f rate (front ++ s ++ rest) ≠ absorb f rate (front ++ t ++ rest) := by
  obtain ⟨u, hu⟩ := exists_absorbFrom_append f rate State.zero hfront
  rw [List.append_assoc, List.append_assoc, absorb, absorb, hu, hu, absorbFrom_block f rate u hs, absorbFrom_block f rate u ht]
  intro hstate
  refine h (State.eq_of_xorBytes_eq (hs.trans ht.symm) ?_ (hf (absorbFrom_injective rate hf rest hstate)))
  rw [hs]
  exact rate.le_state

/-- Sponges that have absorbed two inputs begin their output in different states: single sponges, and the lanes of batches, whatever
else is in the batches and however they are laid out. -/
def BeginApart (a b : Bytes) : Prop :=
  absorb f rate a ≠ absorb f rate b ∧
    ∀ (layout layout' : Layout) (inputs inputs' : Vector Bytes 4), Agree (inputs.map List.length) →
      Agree (inputs'.map List.length) →
      ∃ c c', Batch.absorb layout f rate inputs = .ok c ∧ Batch.absorb layout' f rate inputs' = .ok c' ∧
        ∀ l l' : Fin 4, inputs.get l = a → inputs'.get l' = b → c.lane l ≠ c'.lane l'

/-- Lanes of batches are as far apart as single sponges. -/
theorem beginApart_of_ne {a b : Bytes} (h : absorb f rate a ≠ absorb f rate b) : BeginApart f rate a b := by
  refine ⟨h, ?_⟩
  intro layout layout' inputs inputs' hin hin'
  obtain ⟨c, hc, hlane⟩ := Batch.absorb_lanes layout f rate hin
  obtain ⟨c', hc', hlane'⟩ := Batch.absorb_lanes layout' f rate hin'
  refine ⟨c, c', hc, hc', ?_⟩
  rintro l l' rfl rfl
  rw [hlane, hlane']
  exact h

/-- Different inputs that are shorter than a block. -/
theorem beginApart_of_short {a b : Bytes} (ha : a.length < rate.bytes) (hb : b.length < rate.bytes) (h : a ≠ b) :
    BeginApart f rate a b :=
  beginApart_of_ne f rate (absorb_append_ne f rate [] (Nat.dvd_zero rate.bytes) ha hb h)

end ModuleLattice.Shake

namespace ModuleLattice

open Shake

/-! ## The inputs of the samplers -/

theorem NoiseWidth.length_derivationInput (seed : Seed) (nonce : UInt8) :
    (NoiseWidth.derivationInput seed nonce).length = 33 := by
  simp [NoiseWidth.derivationInput]

theorem Uniform.length_derivationInput (seed : Seed) (x y : UInt8) : (Uniform.derivationInput seed x y).length = 34 := by
  simp [Uniform.derivationInput]

/-- Seed and nonce can be told from the input of noise. -/
theorem NoiseWidth.derivationInput_injective {seed seed' : Seed} {nonce nonce' : UInt8}
    (h : NoiseWidth.derivationInput seed nonce = NoiseWidth.derivationInput seed' nonce') :
    (seed, nonce) = (seed', nonce') := by
  obtain ⟨hseed, hnonce⟩ := List.append_inj h (by simp)
  rw [Vector.toList_inj.1 hseed, List.singleton_injective hnonce]

/-- Seed and indices can be told from the input of uniform coefficients. -/
theorem Uniform.derivationInput_injective {seed seed' : Seed} {x x' y y' : UInt8}
    (h : Uniform.derivationInput seed x y = Uniform.derivationInput seed' x' y') : (seed, x, y) = (seed', x', y') := by
  obtain ⟨hseed, hindices⟩ := List.append_inj h (by simp)
  obtain ⟨hx, hy⟩ := List.cons.inj hindices
  rw [Vector.toList_inj.1 hseed, hx, List.singleton_injective hy]

/-- Absorbing merges no two inputs that differ in one block, at any rate and whatever stands for the permutation. Behind whole blocks
they share, inputs that end in different parts of a block begin their output apart, of whatever lengths these parts are; so do inputs
with different whole blocks in front of a rest they share, if no two states are permuted to one. In particular all different inputs
that are shorter than a block begin apart, and so no two derivations of noise and no two of uniform coefficients begin together. -/
theorem absorb_separates_inputs (f : State → State) :
    (∀ (rate : Rate) (front s t : Bytes), rate.bytes ∣ front.length → s.length < rate.bytes → t.length < rate.bytes → s ≠ t →
        BeginApart f rate (front ++ s) (front ++ t)) ∧
      (Function.Injective f → ∀ (rate : Rate) (front s t rest : Bytes), rate.bytes ∣ front.length → s.length = rate.bytes →
        t.length = rate.bytes → s ≠ t → BeginApart f rate (front ++ s ++ rest) (front ++ t ++ rest)) ∧
      (∀ (rate : Rate) (a b : Bytes), a.length < rate.bytes → b.length < rate.bytes → a ≠ b → BeginApart f rate a b) ∧
      (∀ (seed seed' : Seed) (nonce nonce' : UInt8), (seed, nonce) ≠ (seed', nonce') →
        BeginApart f rate256 (NoiseWidth.derivationInput seed nonce) (NoiseWidth.derivationInput seed' nonce')) ∧
      ∀ (seed seed' : Seed) (x x' y y' : UInt8), (seed, x, y) ≠ (seed', x', y') →
        BeginApart f rate128 (Uniform.derivationInput seed x y) (Uniform.derivationInput seed' x' y') := by
  refine ⟨?_, ?_, ?_, ?_, ?_⟩
  · intro rate front s t hfront hs ht h
    exact beginApart_of_ne f rate (absorb_append_ne f rate front hfront hs ht h)
  · intro hf rate front s t rest hfront hs ht h
    exact beginApart_of_ne f rate (absorb_block_ne rate hf hfront hs ht h rest)
  · intro rate a b ha hb h
    exact beginApart_of_short f rate ha hb h
  · intro seed seed' nonce nonce' h
    have hlen (seed : Seed) (nonce : UInt8) : (NoiseWidth.derivationInput seed nonce).length < rate256.bytes := by
      rw [NoiseWidth.length_derivationInput]
      decide
    exact beginApart_of_short f rate256 (hlen _ _) (hlen _ _) fun heq => h (NoiseWidth.derivationInput_injective heq)
  · intro seed seed' x x' y y' h
    have hlen (seed : Seed) (x y : UInt8) : (Uniform.derivationInput seed x y).length < rate128.bytes := by
      rw [Uniform.length_derivationInput]
      decide
    exact beginApart_of_short f rate128 (hlen _ _ _) (hlen _ _ _) fun heq => h (Uniform.derivationInput_injective heq)

/-- Keccak-f[1600] in place of the permutation: behind a whole block a part one byte short of a block, all padding bytes, and no part
at all; two whole blocks that differ behind two others and in front of a byte; no byte and a zero byte; two nonces of one seed; and
two indices exchanged. -/
theorem absorb_separates_under_keccak :
    BeginApart Keccak.permute rate128 (List.replicate 168 0x80 ++ List.replicate 167 0x1F) (List.replicate 168 0x80 ++ []) ∧
      BeginApart Keccak.permute rate256 (List.replicate 272 0 ++ List.replicate 136 0x9F ++ [0x1F])
        (List.replicate 272 0 ++ List.replicate 136 0x1F ++ [0x1F]) ∧
      BeginApart Keccak.permute rate256 [] [0] ∧
      BeginApart Keccak.permute rate256 (NoiseWidth.derivationInput (Vector.replicate 32 0) 0)
        (NoiseWidth.derivationInput (Vector.replicate 32 0) 1) ∧
      BeginApart Keccak.permute rate128 (Uniform.derivationInput (Vector.replicate 32 0) 0 1)
        (Uniform.derivationInput (Vector.replicate 32 0) 1 0) := by
  obtain ⟨htail, hblock, hshort, hnoise, huniform⟩ := absorb_separates_inputs Keccak.permute
  refine ⟨?_, ?_, ?_, ?_, ?_⟩
  · exact htail rate128 _ _ _ ⟨1, List.length_replicate⟩ (List.length_replicate.trans_lt (by decide)) (by decide) (by decide)
  · exact hblock Keccak.permute_injective rate256 _ _ _ _ ⟨2, List.length_replicate⟩ List.length_replicate List.length_replicate
      (by decide)
  · exact hshort rate256 _ _ (by decide) (by decide) (by decide)
  · exact hnoise _ _ _ _ (by decide)
  · exact huniform _ _ _ _ _ _ (by decide)

end ModuleLattice
