import ModuleLattice.Proofs.UniformSampling

/-!
# Uniform sampling from a batch

A batch of uniform samplers squeezes its lanes together and scans all of them until the last array is full. A lane that was full
before is given blocks that it leaves (`fillBatch_eq`), so after as many blocks as the slowest lane needs every lane holds what it
would hold on its own (`uniform_batch_eq_single`).
-/

namespace ModuleLattice

namespace Uniform

variable (f : Shake.State → Shake.State)

/-- A lane of a batch reader as a reader of its own. -/
def laneReader (r : Shake.BatchReader) (lane : Fin 4) : Shake.Reader := ⟨r.state.lane lane⟩

/-- The next block of a lane, and the reader behind it. -/
theorem squeezeBlocks_lane (r : Shake.BatchReader) (lane : Fin 4) :
    (r.squeezeBlocks f).1.get lane = ((laneReader r lane).squeezeBlock f).1 ∧
      laneReader (r.squeezeBlocks f).2 lane = ((laneReader r lane).squeezeBlock f).2 := by
  have hstate : (r.state.permute f).lane lane = f (r.state.lane lane) := Shake.Batch.lane_permute f r.state lane
  constructor
  · rw [Shake.BatchReader.squeezeBlocks, get_ofFn, Shake.Batch.bytes_eq_lane, hstate]
    rfl
  · rw [Shake.BatchReader.squeezeBlocks, laneReader, hstate]
    rfl

/-- The next blocks of a lane, and the reader behind them. -/
theorem batchBlocks_lane (n : Nat) (r : Shake.BatchReader) (lane : Fin 4) :
    (batchBlocks f n r).1.get lane = (blocks f n (laneReader r lane)).1 ∧
      laneReader (batchBlocks f n r).2 lane = (blocks f n (laneReader r lane)).2 := by
  induction n generalizing r with
  | zero =>
    refine ⟨?_, rfl⟩
    simp [batchBlocks, blocks]
  | succ n ih =>
    obtain ⟨hblock, hreader⟩ := squeezeBlocks_lane f r lane
    obtain ⟨hrest, hbehind⟩ := ih (r.squeezeBlocks f).2
    rw [hreader] at hrest hbehind
    refine ⟨?_, hbehind⟩
    rw [blocks_succ, ← hblock, ← hrest]
    simp [batchBlocks]

theorem fillBatch_full {ss : Vector (Filling 256) 4} {xs : Vector (Coeffs 256) 4}
    (h : (Vector.ofFnM fun lane : Fin 4 => (ss.get lane).full?) = some xs) (limit : Nat) (r : Shake.BatchReader) :
    fillBatch f limit r ss = .ok (some xs) := by
  unfold fillBatch
  rw [h]

theorem fillBatch_zero {ss : Vector (Filling 256) 4} (h : (Vector.ofFnM fun lane : Fin 4 => (ss.get lane).full?) = none)
    (r : Shake.BatchReader) : fillBatch f 0 r ss = .ok none := by
  unfold fillBatch
  rw [h]

theorem fillBatch_succ {ss : Vector (Filling 256) 4} (h : (Vector.ofFnM fun lane : Fin 4 => (ss.get lane).full?) = none)
    (limit : Nat) (r : Shake.BatchReader) :
    fillBatch f (limit + 1) r ss = fillBatch f limit (r.squeezeBlocks f).2
      (Vector.ofFn fun lane => (ss.get lane).scan ((r.squeezeBlocks f).1.get lane)) := by
  have hscan : (Vector.ofFnM fun lane : Fin 4 => (ss.get lane).scanChecked ((r.squeezeBlocks f).1.get lane)) =
      .ok (Vector.ofFn fun lane => (ss.get lane).scan ((r.squeezeBlocks f).1.get lane)) := by
    refine ofFnM_eq_ok_iff.2 fun lane => ?_
    rw [Filling.scanChecked_eq, get_ofFn]
  rw [fillBatch]
  simp only [h, hscan, ok_bind]

/-- The loop of a batch scans every lane as the lane's own loop does, until all arrays are full or the limit is reached; a lane
that is full early is left as it is. -/
theorem fillBatch_eq (limit : Nat) (r : Shake.BatchReader) (ss : Vector (Filling 256) 4) :
    fillBatch f limit r ss =
      .ok (Vector.ofFnM fun lane : Fin 4 => (after f (laneReader r lane) (ss.get lane) limit).full?) := by
  induction limit generalizing r ss with
  | zero =>
    cases hnow : Vector.ofFnM fun lane : Fin 4 => (ss.get lane).full? with
    | some xs => exact (fillBatch_full f hnow 0 r).trans (congrArg Except.ok hnow.symm)
    | none => exact (fillBatch_zero f hnow r).trans (congrArg Except.ok hnow.symm)
  | succ limit ih =>
    cases hnow : Vector.ofFnM fun lane : Fin 4 => (ss.get lane).full? with
    | some xs =>
      have hlane (lane : Fin 4) : after f (laneReader r lane) (ss.get lane) (limit + 1) = ss.get lane :=
        after_full f (Filling.full?_eq_some_iff.1 (ofFnM_eq_some_iff.1 hnow lane)).1 _ _
      simp only [hlane, hnow, fillBatch_full f hnow]
    | none =>
      rw [fillBatch_succ f hnow, ih]
      simp only [get_ofFn, after_succ, squeezeBlocks_lane]

/-! ## The batch against its lanes -/

/-- The batch of a seed and four pairs of indices is absorbed, and its lanes are the readers of the pairs. -/
theorem absorb_lanes (layout : Shake.Layout) (seed : Seed) (indices : Vector (UInt8 × UInt8) 4) :
    ∃ r, Shake.BatchReader.absorb layout f (indices.map fun index => derivationInput seed index.1 index.2) = .ok r ∧
      ∀ lane : Fin 4, laneReader r lane =
        Shake.Reader.absorb f (derivationInput seed (indices.get lane).1 (indices.get lane).2) := by
  have hagree : Shake.Agree ((indices.map fun index => derivationInput seed index.1 index.2).map List.length) := by
    intro i j
    simp [derivationInput]
  refine ⟨_, (Shake.BatchReader.absorb_eq_ok_iff layout f _ _).2 ⟨hagree, rfl⟩, ?_⟩
  intro lane
  rw [laneReader, Shake.Batch.lane_absorbFrom_zero layout f Shake.rate128 ((Shake.agree_lengths_iff _).1 hagree), get_map]
  rfl

/-- A batch answers with the arrays of its lanes after all blocks it may read, if all are full. -/
theorem deriveBatch_eq (layout : Shake.Layout) (limit : Nat) (seed : Seed) (indices : Vector (UInt8 × UInt8) 4) :
    deriveBatch layout f limit seed indices = .ok (Vector.ofFnM fun lane : Fin 4 =>
      (filled f seed (indices.get lane).1 (indices.get lane).2 (3 + limit)).full?) := by
  obtain ⟨r, habsorb, hlane⟩ := absorb_lanes f layout seed indices
  have hfirst : (Vector.ofFnM fun lane : Fin 4 => empty.scanChecked ((batchBlocks f firstBlocks r).1.get lane)) =
      .ok (Vector.ofFn fun lane => filled f seed (indices.get lane).1 (indices.get lane).2 3) := by
    refine ofFnM_eq_ok_iff.2 fun lane => ?_
    rw [Filling.scanChecked_eq, get_ofFn, (batchBlocks_lane f firstBlocks r lane).1, hlane, filled_eq_scan]
    rfl
  unfold deriveBatch
  rw [habsorb, ok_bind]
  dsimp only
  rw [hfirst, ok_bind, fillBatch_eq]
  simp only [get_ofFn, (batchBlocks_lane f firstBlocks r _).2, hlane, after_filled]

end Uniform

open ModuleLattice.Uniform

/-- A batch answers with four polynomials exactly if each of its lanes does within the same number of further blocks. -/
theorem NttPoly.uniformBatch_eq_ok_iff (layout : Shake.Layout) (f : Shake.State → Shake.State) (limit : Nat) (seed : Seed)
    (indices : Vector (UInt8 × UInt8) 4) (ps : Vector NttPoly 4) :
    NttPoly.uniformBatch layout f limit seed indices = .ok (some ps) ↔ ∀ lane : Fin 4,
      NttPoly.uniform f limit seed (indices.get lane).1 (indices.get lane).2 = .ok (some (ps.get lane)) := by
  have hmap (lanes : Option (Vector (Coeffs 256) 4)) :
      lanes.map (fun xs => xs.map NttPoly.mk) = some ps ↔ lanes = some (ps.map NttPoly.coeffs) := by
    rw [Option.map_eq_some_iff]
    constructor
    · rintro ⟨xs, rfl, rfl⟩
      rw [Vector.map_map]
      exact congrArg some (Vector.map_id xs).symm
    · rintro rfl
      refine ⟨_, rfl, ?_⟩
      rw [Vector.map_map]
      exact Vector.map_id ps
  have hlanes : (Vector.ofFnM fun lane : Fin 4 => (filled f seed (indices.get lane).1 (indices.get lane).2 (3 + limit)).full?) =
      some (ps.map NttPoly.coeffs) ↔ ∀ lane : Fin 4,
        (filled f seed (indices.get lane).1 (indices.get lane).2 (3 + limit)).full? = some (ps.get lane).coeffs := by
    rw [ofFnM_eq_some_iff]
    simp only [get_map]
  simp only [NttPoly.uniform_eq_ok_iff]
  rw [← hlanes, ← hmap, NttPoly.uniformBatch, deriveBatch_eq, ok_bind]
  exact ⟨Except.ok.inj, congrArg Except.ok⟩

/-- Samplers that end, each within a number of blocks of its own, end as lanes of a batch. -/
theorem NttPoly.uniformBatch_of_lanes (layout : Shake.Layout) (f : Shake.State → Shake.State) {seed : Seed}
    {indices : Vector (UInt8 × UInt8) 4} {ps : Vector NttPoly 4}
    (h : ∀ lane : Fin 4, ∃ limit,
      NttPoly.uniform f limit seed (indices.get lane).1 (indices.get lane).2 = .ok (some (ps.get lane))) :
    ∃ limit, NttPoly.uniformBatch layout f limit seed indices = .ok (some ps) := by
  choose limit hlimit using h
  refine ⟨Finset.univ.sup limit, (uniformBatch_eq_ok_iff layout f _ seed indices ps).2 fun lane => ?_⟩
  exact uniform_mono f (Finset.le_sup (Finset.mem_univ lane)) (hlimit lane)

/-- Uniform sampling from a batch is uniform sampling pair by pair. For every function in place of the permutation, in both layouts,
for every seed and any four pairs of indices: the batch never faults; it ends with four polynomials exactly if the samplers of the
four pairs end with them; so it ends at all exactly if all four samplers end; and it needs as many further blocks as the slowest
of them. -/
theorem uniform_batch_eq_single (layout : Shake.Layout) (f : Shake.State → Shake.State) (seed : Seed)
    (indices : Vector (UInt8 × UInt8) 4) :
    (∀ limit, ∃ answer, NttPoly.uniformBatch layout f limit seed indices = .ok answer) ∧
      (∀ ps : Vector NttPoly 4, (∃ limit, NttPoly.uniformBatch layout f limit seed indices = .ok (some ps)) ↔
        ∀ lane : Fin 4, ∃ limit,
          NttPoly.uniform f limit seed (indices.get lane).1 (indices.get lane).2 = .ok (some (ps.get lane))) ∧
      ((∃ limit ps, NttPoly.uniformBatch layout f limit seed indices = .ok (some ps)) ↔
        ∀ lane : Fin 4, ∃ limit p,
          NttPoly.uniform f limit seed (indices.get lane).1 (indices.get lane).2 = .ok (some p)) ∧
      ∀ limit ps, NttPoly.uniformBatch layout f limit seed indices = .ok (some ps) ↔ ∀ lane : Fin 4,
        NttPoly.uniform f limit seed (indices.get lane).1 (indices.get lane).2 = .ok (some (ps.get lane)) := by
  have hlanes := fun limit ps => NttPoly.uniformBatch_eq_ok_iff layout f limit seed indices ps
  refine ⟨?_, ?_, ?_, hlanes⟩
  · intro limit
    exact ⟨_, by rw [NttPoly.uniformBatch, deriveBatch_eq]; rfl⟩
  · intro ps
    constructor
    · rintro ⟨limit, h⟩ lane
      exact ⟨limit, (hlanes limit ps).1 h lane⟩
    · exact NttPoly.uniformBatch_of_lanes layout f
  · constructor
    · rintro ⟨limit, ps, h⟩ lane
      exact ⟨limit, ps.get lane, (hlanes limit ps).1 h lane⟩
    · intro h
      choose limit p hp using h
      have hps : ∀ lane : Fin 4, ∃ limit, NttPoly.uniform f limit seed (indices.get lane).1 (indices.get lane).2 =
          .ok (some ((Vector.ofFn p).get lane)) := by
        intro lane
        rw [get_ofFn]
        exact ⟨limit lane, hp lane⟩
      obtain ⟨most, hmost⟩ := NttPoly.uniformBatch_of_lanes layout f hps
      exact ⟨most, Vector.ofFn p, hmost⟩

end ModuleLattice
