import ModuleLattice.Ring.NttPoly
import ModuleLattice.Proofs.OutputPrefix
import ModuleLattice.Proofs.RejectionScan
import Mathlib.Data.Nat.Count

/-!
# Uniform sampling reads one stream

The output of SHAKE128 for a seed and two indices is one endless string of bytes, and a sampler reads it from the front: three
blocks, and then one at a time until its array is full. A block is 168 bytes, which are whole triples, so no candidate is cut by
the end of a block, and what the array holds after any number of blocks is what one scan of all of them leaves (`after_filled`). It
is full as soon as 256 candidates are accepted, wherever in a block or in a triple that is, and then holds the first of them; the
reader is left behind the blocks that were scanned, and no further (`uniform_reads_stream`).

The limit on further blocks is how long one is ready to wait: a sampler ends if it answers within some limit, and with a larger one
it gives the same answer.
-/

namespace ModuleLattice

namespace Rejection

/-- Candidate `i` of an endless string of bytes: of each three bytes the lower candidate, then the upper one. -/
def candidate (bytes : Nat → UInt8) (i : Nat) : Nat :=
  let byte (j : Nat) : Nat := (bytes (3 * (i / 2) + j)).toNat
  if i % 2 = 0 then byte 0 + 256 * (byte 1 % 16) else byte 1 / 16 + 16 * byte 2

/-- A candidate is accepted if it is below the modulus. -/
def Accepted (bytes : Nat → UInt8) (i : Nat) : Prop := candidate bytes i < 3329

instance (bytes : Nat → UInt8) : DecidablePred (Accepted bytes) := fun i => Nat.decLt (candidate bytes i) 3329

/-- The coefficients are the first accepted candidates: each is the one with as many accepted ones before it as there are
coefficients before the coefficient. -/
def FirstAccepted (bytes : Nat → UInt8) (coeffs : Coeffs 256) : Prop :=
  ∀ i : Fin 256, ∃ j, Accepted bytes j ∧ Nat.count (Accepted bytes) j = i ∧ (coeffs.get i).toInt = candidate bytes j

/-- There are no two arrays of first accepted candidates. -/
theorem FirstAccepted.unique {bytes : Nat → UInt8} {coeffs coeffs' : Coeffs 256} (h : FirstAccepted bytes coeffs)
    (h' : FirstAccepted bytes coeffs') : coeffs = coeffs' := by
  ext1 i hi
  obtain ⟨j, hj, hcount, hvalue⟩ := h ⟨i, hi⟩
  obtain ⟨j', hj', hcount', hvalue'⟩ := h' ⟨i, hi⟩
  have hplace : j = j' := Nat.count_injective hj hj' (hcount.trans hcount'.symm)
  exact Int16.toInt.inj (hvalue.trans (hplace ▸ hvalue'.symm))

/-- Where there is an array of first accepted candidates, there are 256 accepted candidates. -/
theorem FirstAccepted.exists_count {bytes : Nat → UInt8} {coeffs : Coeffs 256} (h : FirstAccepted bytes coeffs) :
    ∃ n, 256 ≤ Nat.count (Accepted bytes) n := by
  obtain ⟨j, hj, hcount, -⟩ := h ⟨255, by decide⟩
  refine ⟨j + 1, ?_⟩
  rw [Nat.count_succ, hcount, if_pos hj]

/-- The candidates of the first triples are the first candidates. -/
theorem candidates_range (bytes : Nat → UInt8) (m : Nat) :
    candidates ((List.range (3 * m)).map bytes) = (List.range (2 * m)).map (candidate bytes) := by
  induction m with
  | zero => rfl
  | succ m ih =>
    have htriple : (List.range (3 * (m + 1))).map bytes =
        (List.range (3 * m)).map bytes ++ [bytes (3 * m), bytes (3 * m + 1), bytes (3 * m + 2)] := by
      simp [Nat.mul_succ, List.range_succ]
    have hpair : (List.range (2 * (m + 1))).map (candidate bytes) =
        (List.range (2 * m)).map (candidate bytes) ++ [candidate bytes (2 * m), candidate bytes (2 * m + 1)] := by
      simp [Nat.mul_succ, List.range_succ]
    have hlow : 2 * m / 2 = m ∧ (2 * m + 1) / 2 = m ∧ 2 * m % 2 = 0 ∧ (2 * m + 1) % 2 = 1 := by omega
    obtain ⟨hdiv, hdiv', hmod, hmod'⟩ := hlow
    rw [htriple, hpair, candidates_append (by simp), ih]
    simp [candidates, candidate, hdiv, hdiv', hmod, hmod']

/-- The accepted candidates of the first triples. -/
theorem accepted_range (bytes : Nat → UInt8) (m : Nat) :
    accepted ((List.range (3 * m)).map bytes) = ((List.range (2 * m)).filter (Accepted bytes)).map (candidate bytes) := by
  rw [accepted, candidates_range, List.filter_map]
  rfl

/-- Of the numbers with a property the one at place `i` is the one with `i` before it. -/
theorem getElem?_filter_range {p : Nat → Prop} [DecidablePred p] {n i j : Nat} (h : ((List.range n).filter p)[i]? = some j) :
    p j ∧ Nat.count p j = i := by
  induction n with
  | zero => simp at h
  | succ n ih =>
    have hlength : ((List.range n).filter p).length = Nat.count p n := by rw [Nat.count, List.countP_eq_length_filter]
    rw [List.range_succ, List.filter_append, List.getElem?_append] at h
    split at h
    · exact ih h
    · rename_i hlast
      by_cases hp : p n
      · have hlist : [n].filter p = [n] := by simp [hp]
        rw [hlist, List.getElem?_singleton] at h
        split at h
        · obtain rfl := Option.some.inj h
          exact ⟨hp, by omega⟩
        · cases h
      · have hlist : [n].filter p = [] := by simp [hp]
        rw [hlist] at h
        simp at h

end Rejection

open Rejection

namespace Uniform

variable (f : Shake.State → Shake.State)

/-! ## The array block by block -/

theorem length_blocks (n : Nat) (r : Shake.Reader) : (blocks f n r).1.length = 168 * n := by
  rw [Shake.blocks_eq_squeeze, Shake.length_squeeze]
  rfl

theorem blocks_succ (n : Nat) (r : Shake.Reader) :
    (blocks f (n + 1) r).1 = (r.squeezeBlock f).1 ++ (blocks f n (r.squeezeBlock f).2).1 := rfl

/-- Blocks and further blocks are so many blocks together. -/
theorem blocks_add (m n : Nat) (r : Shake.Reader) :
    (blocks f (m + n) r).1 = (blocks f m r).1 ++ (blocks f n (blocks f m r).2).1 := by
  induction m generalizing r with
  | zero => rw [Nat.zero_add]; rfl
  | succ m ih =>
    rw [Nat.succ_add, blocks_succ, ih, blocks_succ, List.append_assoc]
    rfl

/-- A reader from which so many blocks have been squeezed. -/
def squeezed (n : Nat) (r : Shake.Reader) : Shake.Reader := (fun r => (r.squeezeBlock f).2)^[n] r

theorem squeezed_succ (n : Nat) (r : Shake.Reader) : squeezed f (n + 1) r = squeezed f n (r.squeezeBlock f).2 :=
  Function.iterate_succ_apply _ n r

theorem squeezed_add (m n : Nat) (r : Shake.Reader) : squeezed f (m + n) r = squeezed f n (squeezed f m r) := by
  rw [Nat.add_comm]
  exact Function.iterate_add_apply _ n m r

/-- The reader behind blocks that are read together. -/
theorem blocks_reader (n : Nat) (r : Shake.Reader) : (blocks f n r).2 = squeezed f n r := by
  induction n generalizing r with
  | zero => rfl
  | succ n ih =>
    rw [squeezed_succ, ← ih]
    rfl

/-- The array after `m` further blocks. -/
def after (r : Shake.Reader) (s : Filling 256) (m : Nat) : Filling 256 := s.scan (blocks f m r).1

theorem after_succ (r : Shake.Reader) (s : Filling 256) (m : Nat) :
    after f r s (m + 1) = after f (r.squeezeBlock f).2 (s.scan (r.squeezeBlock f).1) m := by
  have hblock : (r.squeezeBlock f).1.length = 168 := by simp [Shake.Reader.squeezeBlock, Shake.State.bytes, Shake.rate128]
  rw [after, blocks_succ, Filling.scan_append _ (by rw [hblock]; decide)]
  rfl

theorem after_full {s : Filling 256} (h : s.free = []) (r : Shake.Reader) (m : Nat) : after f r s m = s := Filling.scan_full h _

theorem fill_full {s : Filling 256} {x : Coeffs 256} (h : s.full? = some x) (limit read : Nat) (r : Shake.Reader) :
    fill f limit read r s = .ok (some ⟨x, read, r⟩) := by
  unfold fill
  rw [h]

theorem fill_zero {s : Filling 256} (h : s.full? = none) (read : Nat) (r : Shake.Reader) : fill f 0 read r s = .ok none := by
  unfold fill
  rw [h]

theorem fill_succ {s : Filling 256} (h : s.full? = none) (limit read : Nat) (r : Shake.Reader) :
    fill f (limit + 1) read r s = fill f limit (read + 1) (r.squeezeBlock f).2 (s.scan (r.squeezeBlock f).1) := by
  rw [fill]
  simp only [h, Filling.scanChecked_eq, ok_bind]

/-- The loop ends at the first number of blocks that fills the array, if that is within its limit, and its reader is behind just
these blocks; it never faults. -/
theorem fill_spec (limit read : Nat) (r : Shake.Reader) (s : Filling 256) :
    (∃ x m, m ≤ limit ∧ fill f limit read r s = .ok (some ⟨x, read + m, squeezed f m r⟩) ∧ (after f r s limit).full? = some x ∧
        (after f r s m).free = [] ∧ ∀ m' < m, (after f r s m').free ≠ []) ∨
      (after f r s limit).free ≠ [] ∧ fill f limit read r s = .ok none := by
  induction limit generalizing read r s with
  | zero =>
    cases hfull : s.full? with
    | some x =>
      obtain ⟨hfree, -⟩ := Filling.full?_eq_some_iff.1 hfull
      refine .inl ⟨x, 0, le_rfl, fill_full f hfull 0 read r, hfull, hfree, ?_⟩
      exact fun m' hm' => absurd hm' m'.not_lt_zero
    | none => exact .inr ⟨Filling.full?_eq_none_iff.1 hfull, fill_zero f hfull read r⟩
  | succ limit ih =>
    cases hfull : s.full? with
    | some x =>
      obtain ⟨hfree, -⟩ := Filling.full?_eq_some_iff.1 hfull
      refine .inl ⟨x, 0, Nat.zero_le _, fill_full f hfull (limit + 1) read r, ?_, hfree, ?_⟩
      · rw [after_full f hfree, hfull]
      · exact fun m' hm' => absurd hm' m'.not_lt_zero
    | none =>
      rw [fill_succ f hfull, after_succ]
      obtain ⟨x, m, hm, hfill, hlast, hfree, hbefore⟩ | hnone :=
        ih (read + 1) (r.squeezeBlock f).2 (s.scan (r.squeezeBlock f).1)
      · refine .inl ⟨x, m + 1, Nat.succ_le_succ hm, ?_, hlast, ?_, ?_⟩
        · rw [hfill, Nat.add_assoc, Nat.add_comm 1, squeezed_succ]
        · rw [after_succ, hfree]
        · intro m' hm'
          cases m' with
          | zero => exact Filling.full?_eq_none_iff.1 hfull
          | succ m' =>
            rw [after_succ]
            exact hbefore m' (Nat.lt_of_succ_lt_succ hm')
      · exact .inr hnone

/-! ## The stream of a seed and two indices -/

/-- The endless output of SHAKE128 for a seed and two indices. -/
def stream (seed : Seed) (x y : UInt8) : Nat → UInt8 := Shake.Standard.stream f 168 (derivationInput seed x y)

/-- The first blocks of the reader are the beginning of the stream. -/
theorem blocks_eq_stream (seed : Seed) (x y : UInt8) (n : Nat) :
    (blocks f n (Shake.Reader.absorb f (derivationInput seed x y))).1 = (List.range (168 * n)).map (stream f seed x y) := by
  rw [Shake.blocks_eq_squeeze, Shake.Reader.absorb, Shake.Standard.squeeze_absorb_eq_sponge,
    Shake.Standard.sponge_eq_stream f Shake.rate128.pos Shake.rate128.le_state]
  rfl

/-- The array after the first blocks of the stream. -/
def filled (seed : Seed) (x y : UInt8) (n : Nat) : Filling 256 := empty.scan ((List.range (168 * n)).map (stream f seed x y))

theorem filled_eq_scan (seed : Seed) (x y : UInt8) (n : Nat) :
    filled f seed x y n = empty.scan (blocks f n (Shake.Reader.absorb f (derivationInput seed x y))).1 := by
  rw [filled, blocks_eq_stream]

/-- The array takes the accepted candidates of the blocks. -/
theorem filled_takes (seed : Seed) (x y : UInt8) (n : Nat) :
    empty.Takes (((List.range (112 * n)).filter (Accepted (stream f seed x y))).map (candidate (stream f seed x y)))
      (filled f seed x y n) := by
  have htakes := empty.scan_takes ((List.range (3 * (56 * n))).map (stream f seed x y))
  rw [accepted_range, ← Nat.mul_assoc, ← Nat.mul_assoc] at htakes
  exact htakes

theorem length_empty : empty.free.length = 256 := List.length_replicate

/-- The array is full as soon as there are 256 accepted candidates. -/
theorem filled_free_iff (seed : Seed) (x y : UInt8) (n : Nat) :
    (filled f seed x y n).free = [] ↔ 256 ≤ Nat.count (Accepted (stream f seed x y)) (112 * n) := by
  rw [(filled_takes f seed x y n).free_eq_nil_iff, length_empty, List.length_map, Nat.count, List.countP_eq_length_filter]

/-- An array stays full. -/
theorem filled_mono {seed : Seed} {x y : UInt8} {m n : Nat} (h : m ≤ n) (hfree : (filled f seed x y m).free = []) :
    (filled f seed x y n).free = [] := by
  rw [filled_free_iff] at hfree ⊢
  exact hfree.trans (Nat.count_monotone _ (Nat.mul_le_mul_left 112 h))

/-- A full array holds the first accepted candidates. -/
theorem filled_firstAccepted {seed : Seed} {x y : UInt8} {n : Nat} {coeffs : Coeffs 256}
    (h : (filled f seed x y n).full? = some coeffs) : FirstAccepted (stream f seed x y) coeffs := by
  intro i
  obtain ⟨hfree, hwritten⟩ := Filling.full?_eq_some_iff.1 h
  have hget : coeffs.toList[i.val]? = some (coeffs.get i) := by simp
  rw [← hwritten, (filled_takes f seed x y n).written, length_empty] at hget
  have hstart : empty.written.toList = [] := rfl
  rw [hstart, List.nil_append, List.getElem?_map, List.getElem?_take_of_lt i.isLt, List.getElem?_map, Option.map_map,
    Option.map_eq_some_iff] at hget
  obtain ⟨j, hj, hword⟩ := hget
  obtain ⟨haccepted, hcount⟩ := getElem?_filter_range hj
  have hlt : candidate (stream f seed x y) j < 3329 := haccepted
  refine ⟨j, haccepted, hcount, ?_⟩
  rw [← hword]
  exact Int16.toInt_ofNat_of_lt (by omega)

/-- Further blocks after the first three bring the array to where all of them together bring it. -/
theorem after_filled (seed : Seed) (x y : UInt8) (m : Nat) :
    after f (blocks f firstBlocks (Shake.Reader.absorb f (derivationInput seed x y))).2 (filled f seed x y 3) m =
      filled f seed x y (3 + m) := by
  rw [filled_eq_scan f seed x y 3, filled_eq_scan f seed x y (3 + m), blocks_add,
    Filling.scan_append _ (by rw [length_blocks]; decide)]
  rfl

/-- What a derivation answers: with enough accepted candidates in the blocks it may read, the coefficients, the least number of
blocks that has enough and the reader behind these; else nothing. -/
theorem deriveCounted_spec (limit : Nat) (seed : Seed) (x y : UInt8) :
    (∃ coeffs further, further ≤ limit ∧
        deriveCounted f limit seed x y =
          .ok (some ⟨coeffs, 3 + further, squeezed f (3 + further) (Shake.Reader.absorb f (derivationInput seed x y))⟩) ∧
        (filled f seed x y (3 + limit)).full? = some coeffs ∧ (filled f seed x y (3 + further)).free = [] ∧
        ∀ fewer < further, (filled f seed x y (3 + fewer)).free ≠ []) ∨
      (filled f seed x y (3 + limit)).free ≠ [] ∧ deriveCounted f limit seed x y = .ok none := by
  let r := (blocks f firstBlocks (Shake.Reader.absorb f (derivationInput seed x y))).2
  let s := filled f seed x y 3
  have hderive : deriveCounted f limit seed x y = fill f limit 3 r s := by
    unfold deriveCounted
    dsimp only
    rw [Filling.scanChecked_eq, ok_bind]
    exact congrArg (fill f limit 3 r) (filled_eq_scan f seed x y 3).symm
  have hreader (m : Nat) : squeezed f m r = squeezed f (3 + m) (Shake.Reader.absorb f (derivationInput seed x y)) := by
    rw [squeezed_add, ← blocks_reader f 3]
    rfl
  simpa only [hderive, hreader, r, s, after_filled] using fill_spec f limit 3 r s

/-- A number of blocks is reported exactly if it is the least one that fills the array, and within the limit; and the reader is the
one behind so many blocks. -/
theorem deriveCounted_eq_ok_iff (limit : Nat) (seed : Seed) (x y : UInt8) (blocks : Nat) (reader : Shake.Reader) :
    (∃ coeffs, deriveCounted f limit seed x y = .ok (some ⟨coeffs, blocks, reader⟩)) ↔
      ∃ further, further ≤ limit ∧ blocks = 3 + further ∧
        reader = squeezed f blocks (Shake.Reader.absorb f (derivationInput seed x y)) ∧
        (filled f seed x y (3 + further)).free = [] ∧ ∀ fewer < further, (filled f seed x y (3 + fewer)).free ≠ [] := by
  have hspec := deriveCounted_spec f limit seed x y
  constructor
  · rintro ⟨coeffs, h⟩
    obtain ⟨coeffs', further, hlimit, hok, -, hfree, hfewer⟩ | ⟨-, hnone⟩ := hspec
    · obtain ⟨-, rfl, rfl⟩ := Derived.mk.inj (Option.some.inj (Except.ok.inj (h.symm.trans hok)))
      exact ⟨further, hlimit, rfl, rfl, hfree, hfewer⟩
    · exact absurd (Except.ok.inj (hnone.symm.trans h)) (Option.some_ne_none _).symm
  · rintro ⟨further, hlimit, rfl, rfl, hfree, hfewer⟩
    obtain ⟨coeffs, least, -, hok, -, hleast, hbefore⟩ | ⟨hshort, -⟩ := hspec
    · have hsame : least = further := by
        rcases lt_trichotomy least further with hlt | heq | hgt
        · exact absurd hleast (hfewer least hlt)
        · exact heq
        · exact absurd hfree (hbefore further hgt)
      exact ⟨coeffs, hsame ▸ hok⟩
    · exact absurd (filled_mono f (Nat.add_le_add_left hlimit 3) hfree) hshort

/-- The derivation without the count and the reader answers with the array after all blocks it may read, if that is full. -/
theorem derive_eq (limit : Nat) (seed : Seed) (x y : UInt8) :
    derive f limit seed x y = .ok (filled f seed x y (3 + limit)).full? := by
  unfold derive
  obtain ⟨coeffs, further, -, hok, hfull, -⟩ | ⟨hfree, hok⟩ := deriveCounted_spec f limit seed x y
  · rw [hok, hfull]
    rfl
  · rw [hok, Filling.full?_eq_none_iff.2 hfree]
    rfl

/-- A full array is the same after further blocks. -/
theorem filled_stays {seed : Seed} {x y : UInt8} {m n : Nat} (h : m ≤ n) {coeffs : Coeffs 256}
    (hfull : (filled f seed x y m).full? = some coeffs) : (filled f seed x y n).full? = some coeffs := by
  have hfree := filled_mono f h (Filling.full?_eq_some_iff.1 hfull).1
  cases hlater : (filled f seed x y n).full? with
  | some later => rw [(filled_firstAccepted f hlater).unique (filled_firstAccepted f hfull)]
  | none => exact absurd hfree (Filling.full?_eq_none_iff.1 hlater)

/-- An array that is not full can be filled if there are 256 accepted candidates. -/
theorem filled_full {seed : Seed} {x y : UInt8} {n : Nat} (h : 256 ≤ Nat.count (Accepted (stream f seed x y)) n) :
    ∃ coeffs, (filled f seed x y (3 + n)).full? = some coeffs := by
  have hmore : n ≤ 112 * (3 + n) := by omega
  have hfree := (filled_free_iff f seed x y (3 + n)).2 (h.trans (Nat.count_monotone _ hmore))
  cases hfull : (filled f seed x y (3 + n)).full? with
  | some coeffs => exact ⟨coeffs, rfl⟩
  | none => exact absurd hfree (Filling.full?_eq_none_iff.1 hfull)

end Uniform

open ModuleLattice.Uniform

/-- The sampler answers with the array after all blocks it may read, if that is full. -/
theorem NttPoly.uniform_eq_ok_iff (f : Shake.State → Shake.State) (limit : Nat) (seed : Seed) (x y : UInt8) (p : NttPoly) :
    NttPoly.uniform f limit seed x y = .ok (some p) ↔ (filled f seed x y (3 + limit)).full? = some p.coeffs := by
  rw [NttPoly.uniform, derive_eq]
  cases (filled f seed x y (3 + limit)).full? with
  | none => simp [pure, Except.pure]
  | some coeffs =>
    cases p
    simp [pure, Except.pure]

/-- A sampler that has ended gives the same answer when it may read more. -/
theorem NttPoly.uniform_mono (f : Shake.State → Shake.State) {limit limit' : Nat} (h : limit ≤ limit') {seed : Seed} {x y : UInt8}
    {p : NttPoly} (hp : NttPoly.uniform f limit seed x y = .ok (some p)) :
    NttPoly.uniform f limit' seed x y = .ok (some p) := by
  rw [uniform_eq_ok_iff] at hp ⊢
  exact filled_stays f (Nat.add_le_add_left h 3) hp

/-- The sampler ends with a polynomial exactly if that has the first accepted candidates. -/
theorem NttPoly.exists_uniform_iff (f : Shake.State → Shake.State) (seed : Seed) (x y : UInt8) (p : NttPoly) :
    (∃ limit, NttPoly.uniform f limit seed x y = .ok (some p)) ↔ FirstAccepted (stream f seed x y) p.coeffs := by
  constructor
  · rintro ⟨limit, h⟩
    exact filled_firstAccepted f ((uniform_eq_ok_iff f limit seed x y p).1 h)
  · intro h
    obtain ⟨n, hn⟩ := h.exists_count
    obtain ⟨coeffs, hfull⟩ := filled_full f hn
    refine ⟨n, (uniform_eq_ok_iff f n seed x y p).2 ?_⟩
    rw [hfull, (filled_firstAccepted f hfull).unique h]

/-- Uniform sampling reads the stream of its seed and indices exactly. For every function in place of the permutation, every seed
and all indices: the sampler ends with a polynomial exactly if its coefficients are the first accepted candidates of the stream; it
ends at all exactly if the stream has 256 accepted candidates; it never faults; and it reads three blocks and the least number of
further ones, of 112 candidates each, that bring the accepted candidates to 256, and leaves the reader of its input behind just so
many blocks. -/
theorem uniform_reads_stream (f : Shake.State → Shake.State) (seed : Seed) (x y : UInt8) :
    (∀ p : NttPoly, (∃ limit, NttPoly.uniform f limit seed x y = .ok (some p)) ↔
        FirstAccepted (stream f seed x y) p.coeffs) ∧
      ((∃ limit p, NttPoly.uniform f limit seed x y = .ok (some p)) ↔ ∃ n, 256 ≤ Nat.count (Accepted (stream f seed x y)) n) ∧
      (∀ limit, ∃ answer, NttPoly.uniform f limit seed x y = .ok answer) ∧
      ∀ limit blocks reader, (∃ coeffs, deriveCounted f limit seed x y = .ok (some ⟨coeffs, blocks, reader⟩)) ↔
        ∃ further, further ≤ limit ∧ blocks = 3 + further ∧
          reader = (fun r => (r.squeezeBlock f).2)^[blocks] (Shake.Reader.absorb f (derivationInput seed x y)) ∧
          256 ≤ Nat.count (Accepted (stream f seed x y)) (112 * (3 + further)) ∧
          ∀ fewer < further, Nat.count (Accepted (stream f seed x y)) (112 * (3 + fewer)) < 256 := by
  refine ⟨NttPoly.exists_uniform_iff f seed x y, ?_, ?_, ?_⟩
  · constructor
    · rintro ⟨limit, p, h⟩
      exact ((NttPoly.exists_uniform_iff f seed x y p).1 ⟨limit, h⟩).exists_count
    · rintro ⟨n, hn⟩
      obtain ⟨coeffs, hfull⟩ := filled_full f hn
      exact ⟨n, ⟨coeffs⟩, (NttPoly.uniform_eq_ok_iff f n seed x y ⟨coeffs⟩).2 hfull⟩
  · intro limit
    exact ⟨_, by rw [NttPoly.uniform, derive_eq]; rfl⟩
  · intro limit blocks reader
    rw [deriveCounted_eq_ok_iff]
    simp only [squeezed, filled_free_iff, ne_eq, Nat.not_le]

end ModuleLattice
