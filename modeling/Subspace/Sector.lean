import Subspace.U256
import Subspace.Primitives

namespace Subspace

/-! ### Sectors: `LegacySectorId` and the plot geometry

`blake2b_256_hash_with_key(data, key)` is a parameter: every result below holds whatever the keyed
hash returns. -/

/-- Modelled from the spec: `PieceIndex` is declared in the `pieces` module, which is not part of
the sources. It is the position of a piece in the archived history, a `u64` counter;
`From<u64>` wraps the number. Its `to_bytes` is a parameter where it is used. -/
structure PieceIndex where
  value : UInt64
deriving DecidableEq

/-- `Result::expect`: an error becomes a panic whose message is `msg`, then the error's `Debug`
text. -/
def expect {α : Type} (result : Except String α) (msg : String) : Except String α :=
  match result with
  | .ok value => .ok value
  | .error e => .error (msg ++ ": " ++ e.quote)

/-- `LegacySectorId`: the 32-byte sector ID. -/
structure LegacySectorId where
  hash : Blake2b256Hash
deriving DecidableEq

namespace LegacySectorId

variable (blake2b256HashWithKey : List UInt8 → List UInt8 → Blake2b256Hash)

/-- `LegacySectorId::new`: the sector index, little-endian, hashed under the public key. -/
def new (publicKey : PublicKey) (sectorIndex : UInt64) : LegacySectorId :=
  ⟨blake2b256HashWithKey sectorIndex.toLeBytes.toList publicKey.bytes.toList⟩

/-- `derive_piece_index`: the keyed hash of the piece offset, read little-endian, modulo the number
of pieces. The `%` panics on a zero divisor and the `expect` on a remainder that does not fit in a
`u64`; both are errors here. -/
def derivePieceIndex (pieceIndexToBytes : PieceIndex → List UInt8) (self : LegacySectorId)
    (pieceOffset : PieceIndex) (totalPieces : NonZeroU64) : Except String PieceIndex := do
  let pieceIndex ← (U256.fromLeBytes (blake2b256HashWithKey (pieceIndexToBytes pieceOffset)
    self.hash.toList)).rem (U256.fromU64 totalPieces.get)
  let number ← expect (U256.tryFrom pieceIndex)
    "Remainder of division by PieceIndex is guaranteed to fit into PieceIndex; qed"
  pure ⟨number⟩

/-- `derive_local_challenge`: the first eight bytes of the keyed hash of the global challenge,
big-endian. -/
def deriveLocalChallenge (self : LegacySectorId) (globalChallenge : Blake2b256Hash) : UInt64 :=
  let hash := blake2b256HashWithKey globalChallenge.toList self.hash.toList
  UInt64.fromBeBytes ⟨hash.toList.take 8, by simp⟩

/-- `derive_piece_index` never panics: it returns the little-endian value of the digest modulo
`total_pieces`, which is below `total_pieces`. -/
theorem derivePieceIndex_eq_ok (pieceIndexToBytes : PieceIndex → List UInt8)
    (self : LegacySectorId) (pieceOffset : PieceIndex) (totalPieces : NonZeroU64) :
    ∃ pieceIndex : PieceIndex,
      self.derivePieceIndex blake2b256HashWithKey pieceIndexToBytes pieceOffset totalPieces =
          .ok pieceIndex ∧
        pieceIndex.value.toNat =
          (∑ i in Finset.range 32,
            ((blake2b256HashWithKey (pieceIndexToBytes pieceOffset) self.hash.toList).toList.getD i
              0).toNat * 256 ^ i) % totalPieces.get.toNat ∧
        pieceIndex.value.toNat < totalPieces.get.toNat := by
  set digest := blake2b256HashWithKey (pieceIndexToBytes pieceOffset) self.hash.toList
  have hpos : 0 < totalPieces.get.toNat :=
    Nat.pos_of_ne_zero fun h => totalPieces.ne_zero (UInt64.ext (by rw [h]; rfl))
  obtain ⟨r, hrem, hr⟩ := U256.rem_fromU64 (U256.fromLeBytes digest) totalPieces.ne_zero
  have hlt : r.toNat < totalPieces.get.toNat := hr ▸ Nat.mod_lt _ hpos
  have htry : r.tryFrom.map UInt64.toNat = .ok r.toNat := by
    rw [U256.tryFrom_map_toNat, if_pos (hlt.trans totalPieces.get.toNat_lt)]
  obtain ⟨number, hnumber, hvalue⟩ : ∃ number, r.tryFrom = .ok number ∧ number.toNat = r.toNat := by
    cases h : r.tryFrom with
    | error e => rw [h] at htry; cases htry
    | ok number => rw [h] at htry; exact ⟨number, rfl, Except.ok.inj htry⟩
  refine ⟨⟨number⟩, ?_, ?_, hvalue ▸ hlt⟩
  · simp only [derivePieceIndex, hrem, bind, Except.bind, expect, hnumber]
    rfl
  · rw [hvalue, hr, U256.toNat, U256.fromLeBytes, Uint.value_fromLittleEndian (by simp),
      leValue_eq_sum, Mathlib.Vector.toList_length]

end LegacySectorId

/-- `PLOT_SECTOR_SIZE`, from `Piece::SIZE`, `Scalar::SAFE_BYTES` and `Scalar::FULL_BYTES`, which
the `pieces` and `crypto` modules define. -/
def plotSectorSize (pieceSize safeBytes fullBytes : Nat) : Nat :=
  (pieceSize / safeBytes) ^ 2 * fullBytes

/-- `PIECES_IN_SECTOR` -/
def piecesInSector (pieceSize safeBytes fullBytes : Nat) : Nat :=
  plotSectorSize pieceSize safeBytes fullBytes / (pieceSize / safeBytes * fullBytes)

end Subspace
