import Subspace.Codec

namespace Subspace

open Scale

/-! ### The on-chain types of `lib.rs` and their derived SCALE codecs

Types of other modules of the crate (`SegmentIndex`, `Commitment`, `PieceIndex`, `Scalar`,
`Witness`, `ScalarLegacy`) and the generic parameters of `Solution` are parameters here, each with
a codec. -/

/-- `Blake2b256Hash` -/
abbrev Blake2b256Hash := Mathlib.Vector UInt8 32

/-- `PublicKey`: the bytes of a Ristretto Schnorr public key. -/
structure PublicKey where
  bytes : Mathlib.Vector UInt8 32
deriving DecidableEq

/-- `RewardSignature`: the bytes of a Ristretto Schnorr signature. -/
structure RewardSignature where
  bytes : Mathlib.Vector UInt8 64
deriving DecidableEq

/-- `ChunkSignature`: VRF output and proof. -/
structure ChunkSignature where
  output : Mathlib.Vector UInt8 32
  proof : Mathlib.Vector UInt8 64
deriving DecidableEq

/-- `ArchivedBlockProgress`; `partialBytes` is the variant `Partial`, the number of partially
archived bytes of a block. -/
inductive ArchivedBlockProgress
  | complete
  | partialBytes (number : UInt32)
deriving DecidableEq

/-- `Default`: a block is assumed to fit into the segment. -/
instance : Inhabited ArchivedBlockProgress := ⟨.complete⟩

/-- `ArchivedBlockProgress::partial` -/
def ArchivedBlockProgress.getPartial : ArchivedBlockProgress → Option UInt32
  | .complete => none
  | .partialBytes number => some number

/-- `ArchivedBlockProgress::set_partial` -/
def ArchivedBlockProgress.setPartial (_ : ArchivedBlockProgress) (newPartial : UInt32) :
    ArchivedBlockProgress :=
  .partialBytes newPartial

/-- `LastArchivedBlock` -/
structure LastArchivedBlock where
  number : UInt32
  archivedProgress : ArchivedBlockProgress
deriving DecidableEq

namespace LastArchivedBlock

/-- `partial_archived` -/
def partialArchived (block : LastArchivedBlock) : Option UInt32 :=
  block.archivedProgress.getPartial

/-- `set_partial_archived` -/
def setPartialArchived (block : LastArchivedBlock) (newPartial : UInt32) : LastArchivedBlock :=
  { block with archivedProgress := block.archivedProgress.setPartial newPartial }

/-- `set_complete` -/
def setComplete (block : LastArchivedBlock) : LastArchivedBlock :=
  { block with archivedProgress := .complete }

end LastArchivedBlock

/-- `SegmentHeader`, whose only variant `V0` has codec index 0. -/
inductive SegmentHeader (SegmentIndex Commitment : Type)
  | v0 (segmentIndex : SegmentIndex) (segmentCommitment : Commitment)
      (prevSegmentHeaderHash : Blake2b256Hash) (lastArchivedBlock : LastArchivedBlock)
deriving DecidableEq

namespace SegmentHeader

variable {SegmentIndex Commitment : Type}

/-- `segment_index` -/
def segmentIndex : SegmentHeader SegmentIndex Commitment → SegmentIndex
  | .v0 segmentIndex .. => segmentIndex

/-- `segment_commitment` -/
def segmentCommitment : SegmentHeader SegmentIndex Commitment → Commitment
  | .v0 _ segmentCommitment .. => segmentCommitment

/-- `prev_segment_header_hash` -/
def prevSegmentHeaderHash : SegmentHeader SegmentIndex Commitment → Blake2b256Hash
  | .v0 _ _ prevSegmentHeaderHash _ => prevSegmentHeaderHash

/-- `last_archived_block` -/
def lastArchivedBlock : SegmentHeader SegmentIndex Commitment → LastArchivedBlock
  | .v0 _ _ _ lastArchivedBlock => lastArchivedBlock

end SegmentHeader

/-- `Solution`; `sector_index` is a `SectorIndex`, that is a `u64`. -/
structure Solution (PublicKey RewardAddress PieceIndex Scalar Witness ScalarLegacy : Type) where
  publicKey : PublicKey
  rewardAddress : RewardAddress
  sectorIndex : UInt64
  totalPieces : NonZeroU64
  pieceOffset : PieceIndex
  recordCommitmentHash : Scalar
  pieceWitness : Witness
  chunkOffset : UInt32
  chunk : ScalarLegacy
  chunkSignature : ChunkSignature

namespace Solution

variable {PublicKey RewardAddress PieceIndex Scalar Witness ScalarLegacy : Type}

/-- `into_reward_address_format`: the reward address goes through `Into<T>` and then
`Into<RewardAddressB>`. -/
def intoRewardAddressFormat {T RewardAddressB : Type} (intoT : RewardAddress → T)
    (intoB : T → RewardAddressB)
    (solution : Solution PublicKey RewardAddress PieceIndex Scalar Witness ScalarLegacy) :
    Solution PublicKey RewardAddressB PieceIndex Scalar Witness ScalarLegacy :=
  { solution with rewardAddress := intoB (intoT solution.rewardAddress) }

/-- `genesis_solution`: the `expect` on `NonZeroU64::new(1)` is discharged by the proof that
`1 ≠ 0`. -/
def genesisSolution [Inhabited PieceIndex] [Inhabited Scalar] [Inhabited Witness]
    [Inhabited ScalarLegacy] (publicKey : PublicKey) (rewardAddress : RewardAddress) :
    Solution PublicKey RewardAddress PieceIndex Scalar Witness ScalarLegacy where
  publicKey := publicKey
  rewardAddress := rewardAddress
  sectorIndex := 0
  totalPieces := ⟨1, by decide⟩
  pieceOffset := default
  recordCommitmentHash := default
  pieceWitness := default
  chunkOffset := 0
  chunk := default
  chunkSignature := ⟨⟨List.replicate 32 0, rfl⟩, ⟨List.replicate 64 0, rfl⟩⟩

end Solution

/-! The derived codecs. -/

instance : Scale PublicKey where
  encode key := encode key.bytes
  decode input := (decode input).map fun (bytes, rest) => (⟨bytes⟩, rest)

instance : Scale RewardSignature where
  encode signature := encode signature.bytes
  decode input := (decode input).map fun (bytes, rest) => (⟨bytes⟩, rest)

/-- The derived `Encode` of `ChunkSignature`. -/
def ChunkSignature.encode (signature : ChunkSignature) : List UInt8 :=
  Scale.encode signature.output ++ Scale.encode signature.proof

/-- The derived `Decode` of `ChunkSignature`. -/
def ChunkSignature.decode (input : List UInt8) : Option (ChunkSignature × List UInt8) := do
  let (output, input) ← Scale.decode input
  let (proof, input) ← Scale.decode input
  pure (⟨output, proof⟩, input)

instance : Scale ChunkSignature := ⟨ChunkSignature.encode, ChunkSignature.decode⟩

/-- The derived codec of an enum: the variant index, then the fields; an unknown index is a
decoding error. -/
instance : Scale ArchivedBlockProgress where
  encode
    | .complete => [0]
    | .partialBytes number => 1 :: encode number
  decode
    | tag :: input =>
        if tag = 0 then some (.complete, input)
        else if tag = 1 then (decode input).map fun (number, rest) => (.partialBytes number, rest)
        else none
    | [] => none

/-- The derived `Encode` of `LastArchivedBlock`. -/
def LastArchivedBlock.encode (block : LastArchivedBlock) : List UInt8 :=
  Scale.encode block.number ++ Scale.encode block.archivedProgress

/-- The derived `Decode` of `LastArchivedBlock`. -/
def LastArchivedBlock.decode (input : List UInt8) : Option (LastArchivedBlock × List UInt8) := do
  let (number, input) ← Scale.decode input
  let (archivedProgress, input) ← Scale.decode input
  pure (⟨number, archivedProgress⟩, input)

instance : Scale LastArchivedBlock := ⟨LastArchivedBlock.encode, LastArchivedBlock.decode⟩

section Generic

variable {SegmentIndex Commitment PublicKey RewardAddress PieceIndex Scalar Witness ScalarLegacy : Type}
  [Scale SegmentIndex] [Scale Commitment] [Scale PublicKey] [Scale RewardAddress]
  [Scale PieceIndex] [Scale Scalar] [Scale Witness] [Scale ScalarLegacy]

/-- The derived `Encode` of `SegmentHeader`: the index 0 of `V0`, then its fields. -/
def SegmentHeader.encode : SegmentHeader SegmentIndex Commitment → List UInt8
  | .v0 segmentIndex segmentCommitment prevSegmentHeaderHash lastArchivedBlock =>
      0 :: (Scale.encode segmentIndex ++ Scale.encode segmentCommitment ++
        Scale.encode prevSegmentHeaderHash ++ Scale.encode lastArchivedBlock)

/-- The derived `Decode` of `SegmentHeader`. -/
def SegmentHeader.decode : List UInt8 → Option (SegmentHeader SegmentIndex Commitment × List UInt8)
  | tag :: input =>
      if tag = 0 then do
        let (segmentIndex, input) ← Scale.decode input
        let (segmentCommitment, input) ← Scale.decode input
        let (prevSegmentHeaderHash, input) ← Scale.decode input
        let (lastArchivedBlock, input) ← Scale.decode input
        pure (.v0 segmentIndex segmentCommitment prevSegmentHeaderHash lastArchivedBlock, input)
      else none
  | [] => none

instance : Scale (SegmentHeader SegmentIndex Commitment) :=
  ⟨SegmentHeader.encode, SegmentHeader.decode⟩

/-- `SegmentHeader::hash`, with `blake2b_256_hash` a parameter. -/
def SegmentHeader.hash (blake2b256Hash : List UInt8 → Blake2b256Hash)
    (header : SegmentHeader SegmentIndex Commitment) : Blake2b256Hash :=
  blake2b256Hash (Scale.encode header)

/-- The derived `Encode` of `Solution`: the fields in order. -/
def Solution.encode (solution : Solution PublicKey RewardAddress PieceIndex Scalar Witness ScalarLegacy) :
    List UInt8 :=
  Scale.encode solution.publicKey ++ Scale.encode solution.rewardAddress ++
    Scale.encode solution.sectorIndex ++ Scale.encode solution.totalPieces ++
    Scale.encode solution.pieceOffset ++ Scale.encode solution.recordCommitmentHash ++
    Scale.encode solution.pieceWitness ++ Scale.encode solution.chunkOffset ++
    Scale.encode solution.chunk ++ Scale.encode solution.chunkSignature

/-- The derived `Decode` of `Solution`. -/
def Solution.decode (input : List UInt8) :
    Option (Solution PublicKey RewardAddress PieceIndex Scalar Witness ScalarLegacy × List UInt8) := do
  let (publicKey, input) ← Scale.decode input
  let (rewardAddress, input) ← Scale.decode input
  let (sectorIndex, input) ← Scale.decode input
  let (totalPieces, input) ← Scale.decode input
  let (pieceOffset, input) ← Scale.decode input
  let (recordCommitmentHash, input) ← Scale.decode input
  let (pieceWitness, input) ← Scale.decode input
  let (chunkOffset, input) ← Scale.decode input
  let (chunk, input) ← Scale.decode input
  let (chunkSignature, input) ← Scale.decode input
  pure (⟨publicKey, rewardAddress, sectorIndex, totalPieces, pieceOffset, recordCommitmentHash,
    pieceWitness, chunkOffset, chunk, chunkSignature⟩, input)

instance : Scale (Solution PublicKey RewardAddress PieceIndex Scalar Witness ScalarLegacy) :=
  ⟨Solution.encode, Solution.decode⟩

end Generic

/-! Every codec reads back what it writes. -/

namespace Scale

theorem roundTrip_publicKey : RoundTrip PublicKey := fun key rest => by
  show (decode (encode key.bytes ++ rest)).map _ = _
  rw [(roundTrip_array 32).decode_encode]
  rfl

theorem roundTrip_rewardSignature : RoundTrip RewardSignature := fun signature rest => by
  show (decode (encode signature.bytes ++ rest)).map _ = _
  rw [(roundTrip_array 64).decode_encode]
  rfl

theorem roundTrip_chunkSignature : RoundTrip ChunkSignature := fun signature rest => by
  show ChunkSignature.decode (ChunkSignature.encode signature ++ rest) = _
  simp only [ChunkSignature.decode, ChunkSignature.encode, List.append_assoc,
    (roundTrip_array 32).bind_decode, (roundTrip_array 64).bind_decode]
  rfl

theorem roundTrip_archivedBlockProgress : RoundTrip ArchivedBlockProgress
  | .complete, rest => rfl
  | .partialBytes number, rest => by
      show (decode (encode number ++ rest)).map _ = _
      rw [uint32Width.roundTrip.decode_encode]
      rfl

theorem roundTrip_lastArchivedBlock : RoundTrip LastArchivedBlock := fun block rest => by
  show LastArchivedBlock.decode (LastArchivedBlock.encode block ++ rest) = _
  simp only [LastArchivedBlock.decode, LastArchivedBlock.encode, List.append_assoc,
    uint32Width.roundTrip.bind_decode, roundTrip_archivedBlockProgress.bind_decode]
  rfl

section Generic

variable {SegmentIndex Commitment P R PieceIndex Scalar Witness ScalarLegacy : Type}
  [Scale SegmentIndex] [Scale Commitment] [Scale P] [Scale R]
  [Scale PieceIndex] [Scale Scalar] [Scale Witness] [Scale ScalarLegacy]

theorem roundTrip_segmentHeader (hSegmentIndex : RoundTrip SegmentIndex)
    (hCommitment : RoundTrip Commitment) : RoundTrip (SegmentHeader SegmentIndex Commitment)
  | .v0 segmentIndex segmentCommitment prevSegmentHeaderHash lastArchivedBlock, rest => by
      show SegmentHeader.decode (SegmentHeader.encode
        (.v0 segmentIndex segmentCommitment prevSegmentHeaderHash lastArchivedBlock) ++ rest) = _
      simp only [SegmentHeader.encode, SegmentHeader.decode, List.cons_append, List.append_assoc,
        if_pos, hSegmentIndex.bind_decode, hCommitment.bind_decode,
        (roundTrip_array 32).bind_decode, roundTrip_lastArchivedBlock.bind_decode, if_true]
      rfl

theorem roundTrip_solution (hP : RoundTrip P) (hR : RoundTrip R) (hPieceIndex : RoundTrip PieceIndex)
    (hScalar : RoundTrip Scalar) (hWitness : RoundTrip Witness)
    (hScalarLegacy : RoundTrip ScalarLegacy) :
    RoundTrip (Solution P R PieceIndex Scalar Witness ScalarLegacy) := fun solution rest => by
  show Solution.decode (Solution.encode solution ++ rest) = _
  simp only [Solution.decode, Solution.encode, List.append_assoc, hP.bind_decode,
    hR.bind_decode, uint64Width.roundTrip.bind_decode, roundTrip_nonZeroU64.bind_decode,
    hPieceIndex.bind_decode, hScalar.bind_decode, hWitness.bind_decode,
    uint32Width.roundTrip.bind_decode, hScalarLegacy.bind_decode,
    roundTrip_chunkSignature.bind_decode]
  rfl

theorem head_encode_segmentHeader (header : SegmentHeader SegmentIndex Commitment) :
    (encode header).head? = some 0 := by
  cases header
  rfl

theorem segmentHeader_hash_collision (hSegmentIndex : RoundTrip SegmentIndex)
    (hCommitment : RoundTrip Commitment) (blake2b256Hash : List UInt8 → Blake2b256Hash)
    {header header' : SegmentHeader SegmentIndex Commitment} (hne : header ≠ header')
    (hhash : header.hash blake2b256Hash = header'.hash blake2b256Hash) :
    encode header ≠ encode header' ∧ blake2b256Hash (encode header) = blake2b256Hash (encode header') :=
  ⟨fun h => hne ((roundTrip_segmentHeader hSegmentIndex hCommitment).encode_injective h), hhash⟩

/-- The codecs of the on-chain types of `lib.rs` read back what they write, whatever follows, once
the codecs of the types they take from elsewhere do; so `encode` is injective on segment headers,
and two headers with one `SegmentHeader::hash` make a hash collision. -/
theorem onChainTypes_roundTrip (hSegmentIndex : RoundTrip SegmentIndex)
    (hCommitment : RoundTrip Commitment) (hP : RoundTrip P) (hR : RoundTrip R)
    (hPieceIndex : RoundTrip PieceIndex) (hScalar : RoundTrip Scalar) (hWitness : RoundTrip Witness)
    (hScalarLegacy : RoundTrip ScalarLegacy) :
    RoundTrip ArchivedBlockProgress ∧ RoundTrip LastArchivedBlock ∧
      RoundTrip (SegmentHeader SegmentIndex Commitment) ∧ RoundTrip PublicKey ∧
      RoundTrip RewardSignature ∧ RoundTrip ChunkSignature ∧
      RoundTrip (Solution P R PieceIndex Scalar Witness ScalarLegacy) ∧
      (∀ header : SegmentHeader SegmentIndex Commitment, (encode header).head? = some 0) ∧
      Function.Injective (encode : SegmentHeader SegmentIndex Commitment → List UInt8) ∧
      ∀ (blake2b256Hash : List UInt8 → Blake2b256Hash)
        (header header' : SegmentHeader SegmentIndex Commitment), header ≠ header' →
        header.hash blake2b256Hash = header'.hash blake2b256Hash →
        encode header ≠ encode header' ∧
          blake2b256Hash (encode header) = blake2b256Hash (encode header') :=
  ⟨roundTrip_archivedBlockProgress, roundTrip_lastArchivedBlock,
    roundTrip_segmentHeader hSegmentIndex hCommitment, roundTrip_publicKey,
    roundTrip_rewardSignature, roundTrip_chunkSignature,
    roundTrip_solution hP hR hPieceIndex hScalar hWitness hScalarLegacy, head_encode_segmentHeader,
    (roundTrip_segmentHeader hSegmentIndex hCommitment).encode_injective,
    fun blake2b256Hash _ _ hne hhash =>
      segmentHeader_hash_collision hSegmentIndex hCommitment blake2b256Hash hne hhash⟩

end Generic

/-- The codecs round-trip with `u64` segment and piece indices, 48-byte KZG commitments and
witnesses, 32-byte scalars and 32-byte reward addresses. -/
theorem onChainTypes_roundTrip_of_u64_indices :
    RoundTrip ArchivedBlockProgress ∧ RoundTrip LastArchivedBlock ∧
      RoundTrip (SegmentHeader UInt64 (Mathlib.Vector UInt8 48)) ∧ RoundTrip PublicKey ∧
      RoundTrip RewardSignature ∧ RoundTrip ChunkSignature ∧
      RoundTrip (Solution PublicKey (Mathlib.Vector UInt8 32) UInt64 (Mathlib.Vector UInt8 32)
        (Mathlib.Vector UInt8 48) (Mathlib.Vector UInt8 32)) ∧
      (∀ header : SegmentHeader UInt64 (Mathlib.Vector UInt8 48), (encode header).head? = some 0) ∧
      Function.Injective (encode : SegmentHeader UInt64 (Mathlib.Vector UInt8 48) → List UInt8) ∧
      ∀ (blake2b256Hash : List UInt8 → Blake2b256Hash)
        (header header' : SegmentHeader UInt64 (Mathlib.Vector UInt8 48)), header ≠ header' →
        header.hash blake2b256Hash = header'.hash blake2b256Hash →
        encode header ≠ encode header' ∧
          blake2b256Hash (encode header) = blake2b256Hash (encode header') :=
  onChainTypes_roundTrip uint64Width.roundTrip (roundTrip_array 48) roundTrip_publicKey (roundTrip_array 32)
    uint64Width.roundTrip (roundTrip_array 32) (roundTrip_array 48) (roundTrip_array 32)

end Scale

end Subspace
