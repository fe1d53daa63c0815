import ModuleLattice.Program.Value

/-!
# The operations of programs

An `Operation` names one operation of the library together with those of its arguments that are not values: indices, widths,
seeds and byte strings. The other arguments are a list of values, and `Operation.apply` runs the operation on them. One name
stands for the operations of the same meaning on polynomials and on vectors; the arguments decide. A right operand of a
product may come without its multiplication cache and is then given one first.

The answer is one value, four values for a batch, or something that is no value: bytes or a multiplication cache.
-/

namespace ModuleLattice

/-- What operations depend on besides their arguments and the backend: the permutation of the sponges, the layout of batches,
and how many blocks a uniform sampler may read beyond the first ones. -/
structure Setting where
  permutation : Shake.State → Shake.State
  layout : Shake.Layout
  blockLimit : Nat

/-- An operation with its arguments that are not values. -/
inductive Operation where
  | copy
  | ntt
  | nttInverse
  | reduce
  | toMontgomery
  | add
  | sub
  | wipe
  | setCoeff (i : Fin 256) (c : Int16)
  | getPoly (i : Nat)
  | setPoly (i : Nat)
  | mulCache
  | cached
  | uncached
  | mul
  | mulCached
  | innerProduct
  | innerProductCached
  | compress (d : Width) (buffer : Option Bytes)
  | toMessage
  | toBytes (buffer : Option Bytes)
  | decompress (d : Width) (bytes : Bytes)
  | tryDecompress (d : Width) (bytes : Bytes)
  | decompressVec (rank : Nat) (d : Width) (bytes : Bytes)
  | tryDecompressVec (rank : Nat) (d : Width) (bytes : Bytes)
  | ofMessage (message : Vector UInt8 32)
  | ofBytes (bytes : Vector UInt8 384)
  | tryOfBytes (bytes : Bytes)
  | vecOfBytes (rank : Nat) (bytes : Bytes)
  | tryVecOfBytes (rank : Nat) (bytes : Bytes)
  | noiseOfBytes (w : NoiseWidth) (buffer : Bytes)
  | noise (w : NoiseWidth) (seed : Seed) (nonce : UInt8)
  | noiseBatch (w : NoiseWidth) (seed : Seed) (nonces : Vector UInt8 4)
  | noiseMixedBatch (first second : NoiseWidth) (seed : Seed) (nonces : Vector UInt8 4)
  | uniform (seed : Seed) (x y : UInt8)
  | uniformBatch (seed : Seed) (indices : Vector (UInt8 × UInt8) 4)
  | absorb (input : Bytes)
  | absorbBatch (inputs : Vector Bytes 4)

/-- What becomes of an operation. -/
inductive Answer where
  /-- It delivered a value. -/
  | value (v : Value)
  /-- It delivered four values. -/
  | batch (vs : Vector Value 4)
  /-- It delivered a byte string. -/
  | bytes (b : Bytes)
  /-- It delivered four byte strings. -/
  | byteBatch (bs : Vector Bytes 4)
  /-- It delivered a multiplication cache. -/
  | mulCache (c : MulCache)
  /-- It selected a backend. -/
  | selected (b : Backend)
  /-- It stopped with a fault. -/
  | fault (e : Fault)
  /-- A uniform sampler reached the limit of its blocks. -/
  | unfinished
  /-- The operation is not defined on values of these types. -/
  | undefined

namespace Answer

/-- The answer of a computation that can stop with a fault. -/
def ofExcept {α : Type} (deliver : α → Answer) : Except Fault α → Answer
  | .ok a => deliver a
  | .error e => .fault e

/-- The answer of a computation that delivers one value. -/
def ofValue {α : Type} (wrap : α → Value) : Except Fault α → Answer := ofExcept fun a => .value (wrap a)

/-- The answer of a computation that delivers a batch of values. -/
def ofBatch {α : Type} (wrap : α → Value) : Except Fault (Vector α 4) → Answer := ofExcept fun as => .batch (as.map wrap)

/-- The answer of a computation that may reach a limit. -/
def ofLimited {α : Type} (answer : Except Fault α → Answer) : Except Fault (Option α) → Answer
  | .ok (some a) => answer (.ok a)
  | .ok none => .unfinished
  | .error e => .fault e

end Answer

namespace Operation

/-- The buffer an encoding is written over: the one given, or a fresh one of the right length. -/
def bufferOr (buffer : Option Bytes) (length : Nat) : Bytes := buffer.getD (List.replicate length 0)

/-- An operation on two vectors of the same rank. -/
def onRank {V : Nat → Type} {k l : Nat} (v : V k) (w : V l) (f : V k → V k → Answer) : Answer :=
  if h : l = k then f v (h ▸ w) else .undefined

/-- The operation on values. -/
def apply (setting : Setting) (b : Backend) : Operation → List Value → Answer
  | .copy, [v] => .value v
  | .ntt, [.poly p] => .ofValue .nttPoly (p.ntt b)
  | .ntt, [.polyVec v] => .ofValue .nttVec (v.ntt b)
  | .nttInverse, [.nttPoly p] => .ofValue .poly (p.nttInverse b)
  | .nttInverse, [.nttVec v] => .ofValue .polyVec (v.nttInverse b)
  | .reduce, [.poly p] => .ofValue .poly (p.reduce b)
  | .reduce, [.nttPoly p] => .ofValue .nttPoly (p.reduce b)
  | .reduce, [.polyVec v] => .ofValue .polyVec (v.reduce b)
  | .reduce, [.nttVec v] => .ofValue .nttVec (v.reduce b)
  | .toMontgomery, [.poly p] => .ofValue .poly (p.toMontgomery b)
  | .toMontgomery, [.nttPoly p] => .ofValue .nttPoly (p.toMontgomery b)
  | .toMontgomery, [.nttVec v] => .ofValue .nttVec (v.toMontgomery b)
  | .add, [.poly p, .poly q] => .ofValue .poly (p.add q)
  | .add, [.nttPoly p, .nttPoly q] => .ofValue .nttPoly (p.add q)
  | .add, [.polyVec v, .polyVec w] => onRank v w fun v w => .ofValue .polyVec (v.add w)
  | .add, [.nttVec v, .nttVec w] => onRank v w fun v w => .ofValue .nttVec (v.add w)
  | .sub, [.poly p, .poly q] => .ofValue .poly (p.sub q)
  | .sub, [.polyVec v, .polyVec w] => onRank v w fun v w => .ofValue .polyVec (v.sub w)
  | .wipe, [.poly p] => .value (.poly p.wipe)
  | .wipe, [.polyVec v] => .value (.polyVec v.wipe)
  | .setCoeff i c, [.poly p] => .value (.poly (p.setCoeff i c))
  | .setCoeff i c, [.nttPoly p] => .value (.nttPoly (p.setCoeff i c))
  | .getPoly i, [@Value.polyVec rank v] => if h : i < rank then .value (.poly (v.polys[i])) else .undefined
  | .getPoly i, [@Value.nttVec rank v] => if h : i < rank then .value (.nttPoly (v.polys[i])) else .undefined
  | .getPoly i, [@Value.cachedNttVec rank v] => if h : i < rank then .value (.cachedNttPoly (v.polys[i])) else .undefined
  | .setPoly i, [@Value.polyVec rank v, .poly p] =>
    if h : i < rank then .value (.polyVec (v.setPoly ⟨i, h⟩ p)) else .undefined
  | .setPoly i, [@Value.nttVec rank v, .nttPoly p] =>
    if h : i < rank then .value (.nttVec (v.setPoly ⟨i, h⟩ p)) else .undefined
  | .mulCache, [.nttPoly p] => .ofExcept .mulCache (p.mulCache b)
  | .mulCache, [.cachedNttPoly p] => .mulCache p.cache
  | .cached, [.nttPoly p] => .ofValue .cachedNttPoly (p.cached b)
  | .cached, [.nttVec v] => .ofValue .cachedNttVec (v.cached b)
  | .uncached, [.cachedNttPoly p] => .value (.nttPoly p.poly)
  | .uncached, [.nttPoly p] => .ofValue (fun c => .nttPoly c.poly) (p.cached b)
  | .uncached, [.cachedNttVec v] => .value (.nttVec v.toNttVec)
  | .uncached, [.nttVec v] => .ofValue (fun c => .nttVec c.toNttVec) (v.cached b)
  | .mul, [.nttPoly p, .nttPoly q] => .ofValue .nttPoly (p.mul b q)
  | .mulCached, [.nttPoly p, .cachedNttPoly q] => .ofValue .nttPoly (p.mulCached b q)
  | .mulCached, [.nttPoly p, .nttPoly q] => .ofValue .nttPoly (do p.mulCached b (← q.cached b))
  | .innerProduct, [@Value.nttVec k v, .nttVec w] =>
    if NttVec.ProductRank k then onRank v w fun v w => .ofValue .nttPoly (v.innerProduct b w) else .undefined
  | .innerProductCached, [@Value.nttVec k v, @Value.cachedNttVec l w] =>
    if h : NttVec.ProductRank k ∧ l = k then .ofValue .nttPoly (v.innerProductCached b (h.2 ▸ w)) else .undefined
  | .innerProductCached, [@Value.nttVec k v, .nttVec w] =>
    if NttVec.ProductRank k then onRank v w fun v w => .ofValue .nttPoly (do v.innerProductCached b (← w.cached b))
    else .undefined
  | .compress d buffer, [.poly p] => .ofExcept .bytes (p.compress d (bufferOr buffer d.polynomialBytes))
  | .compress d buffer, [@Value.polyVec rank v] =>
    .ofExcept .bytes (v.compress d (bufferOr buffer (PolyVec.compressedBytes rank d)))
  | .toMessage, [.poly p] => .ofExcept .bytes p.toMessage
  | .toBytes _, [.nttPoly p] => .ofExcept (fun bytes => .bytes bytes.toList) p.toBytes
  | .toBytes buffer, [@Value.nttVec rank v] => .ofExcept .bytes (v.toBytes (bufferOr buffer (NttVec.encodedBytes rank)))
  | .decompress d bytes, [] => .ofValue .poly (Poly.decompress d bytes)
  | .tryDecompress d bytes, [] => .ofValue .poly (Poly.tryDecompress d bytes)
  | .decompressVec rank d bytes, [] => .ofValue .polyVec (PolyVec.decompress rank d bytes)
  | .tryDecompressVec rank d bytes, [] => .ofValue .polyVec (PolyVec.tryDecompress rank d bytes)
  | .ofMessage message, [] => .ofValue .poly (Poly.ofMessage message)
  | .ofBytes bytes, [] => .ofValue .nttPoly (NttPoly.ofBytes bytes)
  | .tryOfBytes bytes, [] => .ofValue .nttPoly (NttPoly.tryOfBytes bytes)
  | .vecOfBytes rank bytes, [] => .ofValue .nttVec (NttVec.ofBytes rank bytes)
  | .tryVecOfBytes rank bytes, [] => .ofValue .nttVec (NttVec.tryOfBytes rank bytes)
  | .noiseOfBytes w buffer, [] => .ofValue .poly (Poly.noiseOfBytes w buffer)
  | .noise w seed nonce, [] => .ofValue .poly (Poly.noise setting.permutation w seed nonce)
  | .noiseBatch w seed nonces, [] => .ofBatch .poly (Poly.noiseBatch setting.layout setting.permutation w seed nonces)
  | .noiseMixedBatch first second seed nonces, [] =>
    .ofBatch .poly (Poly.noiseMixedBatch setting.layout setting.permutation first second seed nonces)
  | .uniform seed x y, [] =>
    .ofLimited (.ofValue .nttPoly) (NttPoly.uniform setting.permutation setting.blockLimit seed x y)
  | .uniformBatch seed indices, [] =>
    .ofLimited (.ofBatch .nttPoly)
      (NttPoly.uniformBatch setting.layout setting.permutation setting.blockLimit seed indices)
  | .absorb input, [] => .value (.reader (Shake.Reader.absorb setting.permutation input))
  | .absorbBatch inputs, [] =>
    .ofValue .batchReader (Shake.BatchReader.absorb setting.layout setting.permutation inputs)
  | _, _ => .undefined

end Operation

end ModuleLattice
