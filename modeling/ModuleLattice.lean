import ModuleLattice.Build
import ModuleLattice.ParameterSet
import ModuleLattice.Proofs.CheckedWord
import ModuleLattice.Proofs.Reduction
import ModuleLattice.Proofs.Layer
import ModuleLattice.Proofs.ForwardTransform
import ModuleLattice.Proofs.InverseTransform
import ModuleLattice.Proofs.LaneChain
import ModuleLattice.Proofs.NegacyclicRing
import ModuleLattice.Proofs.RoundTrip
import ModuleLattice.Proofs.Shuffle
import ModuleLattice.Proofs.InnerProduct
import ModuleLattice.Proofs.ShuffledProducts
import ModuleLattice.Proofs.RingProduct
import ModuleLattice.Proofs.Digits
import ModuleLattice.Proofs.FieldCounting
import ModuleLattice.Proofs.StateBytes
import ModuleLattice.Proofs.StandardSponge
import ModuleLattice.Proofs.BatchedSponge
import ModuleLattice.Proofs.EntryForm
import ModuleLattice.Proofs.BackendIndependence
import ModuleLattice.Proofs.EntryChecks
import ModuleLattice.Proofs.Packings
import ModuleLattice.Proofs.Codecs
import ModuleLattice.Proofs.EntryConditions
import ModuleLattice.Proofs.CompressedLayout
import ModuleLattice.Proofs.CompressionError
import ModuleLattice.Proofs.FaithfulCompression
import ModuleLattice.Proofs.ModulusCheck
import ModuleLattice.Proofs.ResidueEncoding
import ModuleLattice.Proofs.OutputPrefix
import ModuleLattice.Proofs.RejectionScan
import ModuleLattice.Proofs.RejectionResumed
import ModuleLattice.Proofs.RejectionDistribution
import ModuleLattice.Proofs.UniformSampling
import ModuleLattice.Proofs.UniformBatch
import ModuleLattice.Proofs.NoiseSampler
import ModuleLattice.Proofs.NoiseBits
import ModuleLattice.Proofs.NoiseDistribution
import ModuleLattice.Proofs.NoiseBatch
import ModuleLattice.Proofs.Preimage
import ModuleLattice.Proofs.QuadraticFactors
import ModuleLattice.Proofs.KeyEquation
import ModuleLattice.Proofs.Decryption
import ModuleLattice.Proofs.NoiseTolerance
import ModuleLattice.Proofs.Congruence
import ModuleLattice.Proofs.CongruentMachines
import ModuleLattice.Proofs.LazyReduction
import ModuleLattice.Proofs.InputSeparation
import ModuleLattice.Proofs.MontgomeryRange
import ModuleLattice.Proofs.InPlacePasses
