import Subspace.Primitives

namespace Subspace

namespace Scale

/-! ### What the decoders accept

The round trip says that decoding reads back every encoding. The other half of a consensus codec:
whatever a decoder accepts is an encoding, so no value is read from a second byte string and no
truncated or padded input is taken for a value. -/

/-- A decoder that accepts only encodings: the input it reads `x` from is the encoding of `x`
followed by what it leaves. -/
def Canonical (α : Type) [Scale α] : Prop :=
  ∀ (input rest : List UInt8) (x : α), decode input = some (x, rest) → input = encode x ++ rest

theorem Canonical.bind {α β : Type} [Scale α] (h : Canonical α) {input : List UInt8}
    {next : α × List UInt8 → Option β} {out : β} (hdecode : decode input >>= next = some out) :
    ∃ x rest, input = encode x ++ rest ∧ next (x, rest) = some out := by
  obtain ⟨⟨x, rest⟩, hx, hnext⟩ := Option.bind_eq_some.mp hdecode
  exact ⟨x, rest, h input rest x hx, hnext⟩

theorem Canonical.map {α β : Type} [Scale α] (h : Canonical α) {input rest : List UInt8}
    {f : α → β} {y : β} (hdecode : (decode input).map (fun (x, rest) => (f x, rest)) = some (y, rest)) :
    ∃ x, input = encode x ++ rest ∧ f x = y := by
  obtain ⟨⟨x, rest'⟩, hx, hxy⟩ := Option.map_eq_some'.mp hdecode
  obtain ⟨rfl, rfl⟩ := Prod.mk.inj hxy
  exact ⟨x, h input rest' x hx, rfl⟩

theorem canonical_array (n : Nat) : Canonical (Mathlib.Vector UInt8 n) := by
  intro input rest bytes h
  change decodeArray n input = _ at h
  rw [decodeArray] at h
  split at h
  · obtain ⟨rfl, rfl⟩ := Prod.mk.inj (Option.some.inj h)
    exact (List.take_append_drop n input).symm
  · cases h

end Scale

theorem FixedWidth.canonical {α : Type} {w : Nat} (width : FixedWidth α w) :
    @Scale.Canonical α width.scale := fun input rest x h => by
  obtain ⟨bytes, hinput, rfl⟩ := (Scale.canonical_array w).map h
  rw [hinput]
  show bytes.toList ++ rest = (width.toLeBytes (width.fromLeBytes bytes)).toList ++ rest
  rw [width.toLeBytes_fromLeBytes]

namespace Scale

theorem canonical_nonZeroU64 : Canonical NonZeroU64 := fun input rest x h => by
  obtain ⟨n, rest', rfl, hnext⟩ := uint64Width.canonical.bind h
  obtain ⟨x', hnew, hx'⟩ := Option.bind_eq_some.mp hnext
  obtain ⟨rfl, rfl⟩ := Prod.mk.inj (Option.some.inj hx')
  have hget : x'.get = n := by
    unfold NonZeroU64.new at hnew
    split at hnew
    · cases hnew
    · rw [← Option.some.inj hnew]
  rw [← hget]
  rfl

theorem canonical_publicKey : Canonical PublicKey := fun input rest key h => by
  obtain ⟨bytes, hinput, rfl⟩ := (canonical_array 32).map h
  exact hinput

theorem canonical_rewardSignature : Canonical RewardSignature := fun input rest signature h => by
  obtain ⟨bytes, hinput, rfl⟩ := (canonical_array 64).map h
  exact hinput

theorem canonical_chunkSignature : Canonical ChunkSignature := fun input rest signature h => by
  change ChunkSignature.decode input = _ at h
  rw [ChunkSignature.decode] at h
  obtain ⟨output, input, rfl, h1⟩ := (canonical_array 32).bind h
  obtain ⟨proof, input, rfl, h2⟩ := (canonical_array 64).bind h1
  obtain rfl := (Prod.mk.inj (Option.some.inj h2)).2
  obtain rfl := (Prod.mk.inj (Option.some.inj h2)).1
  simp only [encode, ChunkSignature.encode, List.append_assoc]

theorem canonical_archivedBlockProgress : Canonical ArchivedBlockProgress
  | tag :: input, rest, progress, h => by
      change (if tag = 0 then some (ArchivedBlockProgress.complete, input) else if tag = 1 then
        (decode input).map fun (number, rest) => (ArchivedBlockProgress.partialBytes number, rest)
        else none) = _ at h
      split_ifs at h with h0 h1
      · obtain ⟨rfl, rfl⟩ := Prod.mk.inj (Option.some.inj h)
        rw [h0]
        rfl
      · obtain ⟨number, hinput, rfl⟩ := uint32Width.canonical.map h
        rw [h1, hinput]
        rfl
  | [], _, _, h => by cases h

theorem canonical_lastArchivedBlock : Canonical LastArchivedBlock := fun input rest block h => by
  change LastArchivedBlock.decode input = _ at h
  rw [LastArchivedBlock.decode] at h
  obtain ⟨number, input, rfl, h1⟩ := uint32Width.canonical.bind h
  obtain ⟨progress, input, rfl, h2⟩ := canonical_archivedBlockProgress.bind h1
  obtain rfl := (Prod.mk.inj (Option.some.inj h2)).2
  obtain rfl := (Prod.mk.inj (Option.some.inj h2)).1
  simp only [encode, LastArchivedBlock.encode, List.append_assoc]

section Generic

variable {SegmentIndex Commitment P R PieceIndex Scalar Witness ScalarLegacy : Type}
  [Scale SegmentIndex] [Scale Commitment] [Scale P] [Scale R]
  [Scale PieceIndex] [Scale Scalar] [Scale Witness] [Scale ScalarLegacy]

theorem canonical_segmentHeader (hSegmentIndex : Canonical SegmentIndex)
    (hCommitment : Canonical Commitment) : Canonical (SegmentHeader SegmentIndex Commitment)
  | tag :: input, rest, header, h => by
      change SegmentHeader.decode (tag :: input) = _ at h
      rw [SegmentHeader.decode] at h
      split_ifs at h with h0
      obtain ⟨segmentIndex, input, rfl, h1⟩ := hSegmentIndex.bind h
      obtain ⟨segmentCommitment, input, rfl, h2⟩ := hCommitment.bind h1
      obtain ⟨prevSegmentHeaderHash, input, rfl, h3⟩ := (canonical_array 32).bind h2
      obtain ⟨lastArchivedBlock, input, rfl, h4⟩ := canonical_lastArchivedBlock.bind h3
      obtain rfl := (Prod.mk.inj (Option.some.inj h4)).2
      obtain rfl := (Prod.mk.inj (Option.some.inj h4)).1
      simp only [h0, encode, SegmentHeader.encode, List.append_assoc, List.cons_append]
  | [], _, _, h => by cases h

theorem canonical_solution (hP : Canonical P) (hR : Canonical R) (hPieceIndex : Canonical PieceIndex)
    (hScalar : Canonical Scalar) (hWitness : Canonical Witness)
    (hScalarLegacy : Canonical ScalarLegacy) :
    Canonical (Solution P R PieceIndex Scalar Witness ScalarLegacy) := fun input rest solution h => by
  change Solution.decode input = _ at h
  rw [Solution.decode] at h
  obtain ⟨publicKey, input, rfl, h1⟩ := hP.bind h
  obtain ⟨rewardAddress, input, rfl, h2⟩ := hR.bind h1
  obtain ⟨sectorIndex, input, rfl, h3⟩ := uint64Width.canonical.bind h2
  obtain ⟨totalPieces, input, rfl, h4⟩ := canonical_nonZeroU64.bind h3
  obtain ⟨pieceOffset, input, rfl, h5⟩ := hPieceIndex.bind h4
  obtain ⟨recordCommitmentHash, input, rfl, h6⟩ := hScalar.bind h5
  obtain ⟨pieceWitness, input, rfl, h7⟩ := hWitness.bind h6
  obtain ⟨chunkOffset, input, rfl, h8⟩ := uint32Width.canonical.bind h7
  obtain ⟨chunk, input, rfl, h9⟩ := hScalarLegacy.bind h8
  obtain ⟨chunkSignature, input, rfl, h10⟩ := canonical_chunkSignature.bind h9
  obtain rfl := (Prod.mk.inj (Option.some.inj h10)).2
  obtain rfl := (Prod.mk.inj (Option.some.inj h10)).1
  simp only [encode, Solution.encode, List.append_assoc]

/-- The decoders of the on-chain types of `lib.rs` accept only encodings, once the decoders of the
types they take from elsewhere do: an input decodes to `x` with `rest` left over only when it is
the encoding of `x` followed by `rest`. -/
theorem onChainTypes_canonical (hSegmentIndex : Canonical SegmentIndex)
    (hCommitment : Canonical Commitment) (hP : Canonical P) (hR : Canonical R)
    (hPieceIndex : Canonical PieceIndex) (hScalar : Canonical Scalar) (hWitness : Canonical Witness)
    (hScalarLegacy : Canonical ScalarLegacy) :
    Canonical ArchivedBlockProgress ∧ Canonical LastArchivedBlock ∧
      Canonical (SegmentHeader SegmentIndex Commitment) ∧ Canonical PublicKey ∧
      Canonical RewardSignature ∧ Canonical ChunkSignature ∧
      Canonical (Solution P R PieceIndex Scalar Witness ScalarLegacy) :=
  ⟨canonical_archivedBlockProgress, canonical_lastArchivedBlock,
    canonical_segmentHeader hSegmentIndex hCommitment, canonical_publicKey,
    canonical_rewardSignature, canonical_chunkSignature,
    canonical_solution hP hR hPieceIndex hScalar hWitness hScalarLegacy⟩

end Generic

/-- With `u64` segment and piece indices, 48-byte KZG commitments and witnesses, 32-byte scalars
and 32-byte reward addresses. -/
theorem onChainTypes_canonical_of_u64_indices :
    Canonical ArchivedBlockProgress ∧ Canonical LastArchivedBlock ∧
      Canonical (SegmentHeader UInt64 (Mathlib.Vector UInt8 48)) ∧ Canonical PublicKey ∧
      Canonical RewardSignature ∧ Canonical ChunkSignature ∧
      Canonical (Solution PublicKey (Mathlib.Vector UInt8 32) UInt64 (Mathlib.Vector UInt8 32)
        (Mathlib.Vector UInt8 48) (Mathlib.Vector UInt8 32)) :=
  onChainTypes_canonical uint64Width.canonical (canonical_array 48) canonical_publicKey
    (canonical_array 32) uint64Width.canonical (canonical_array 32) (canonical_array 48)
    (canonical_array 32)

end Scale

end Subspace
