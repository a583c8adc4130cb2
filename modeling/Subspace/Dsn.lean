import Subspace.Bytes

namespace Subspace

/-! ### `start_dsn_archiver`

The archiver loop of `dsn.rs`: for each archived-segment notification it spawns one
`segment-publishing` task that stores every piece of the segment in the DHT under the key of its
piece index, unless the segment is the one it published last. A task is modelled by the
`put_value` calls it makes; `PIECES_IN_SEGMENT` and the key of a piece index
(`PieceIndexHash::from_index(idx).to_multihash()`) are parameters. `u64` arithmetic wraps. -/

variable {Key Piece : Type}

/-- `ArchivedSegmentNotification`, as far as the archiver reads it: the segment index of the root
block and the pieces of the segment. -/
structure ArchivedSegmentNotification (Piece : Type) where
  segmentIndex : UInt64
  pieces : List Piece

/-- A `put_value(key, piece)` call on the node. -/
structure PutValue (Key Piece : Type) where
  key : Key
  piece : Piece

/-- The body of a `segment-publishing` task: the keys of the indices from `first_piece_index` on,
taken as many as there are pieces, zipped with the pieces, one `put_value` each. -/
def publishingTask (keyOf : UInt64 → Key) (firstPieceIndex : UInt64) (pieces : List Piece) :
    List (PutValue Key Piece) :=
  let keysIter := ((List.range pieces.length).map fun k => firstPieceIndex + UInt64.ofNat k).map
    fun idx => (idx, keyOf idx)
  (keysIter.zip pieces).map fun ((_, key), piece) => ⟨key, piece⟩

/-- One pass of the loop: the task spawned for the notification, if any, and the next
`last_published_segment_index`. A repeat of the last published segment is skipped. -/
def archiverStep (piecesInSegment : UInt32) (keyOf : UInt64 → Key)
    (lastPublishedSegmentIndex : Option UInt64) (notification : ArchivedSegmentNotification Piece) :
    Option (List (PutValue Key Piece)) × Option UInt64 :=
  let segmentIndex := notification.segmentIndex
  let firstPieceIndex := segmentIndex * piecesInSegment.toUInt64
  if lastPublishedSegmentIndex = some segmentIndex then (none, lastPublishedSegmentIndex)
  else (some (publishingTask keyOf firstPieceIndex notification.pieces), some segmentIndex)

/-- `start_dsn_archiver` from the state `lastPublishedSegmentIndex` over a stream of
notifications: for each notification, the task spawned for it, if any. -/
def startDsnArchiver (piecesInSegment : UInt32) (keyOf : UInt64 → Key) :
    Option UInt64 → List (ArchivedSegmentNotification Piece) → List (Option (List (PutValue Key Piece)))
  | _, [] => []
  | lastPublishedSegmentIndex, notification :: rest =>
      let step := archiverStep piecesInSegment keyOf lastPublishedSegmentIndex notification
      step.1 :: startDsnArchiver piecesInSegment keyOf step.2 rest

/-- What the task for a segment does: `put_value` of its `k`-th piece under the key of piece index
`segment_index * PIECES_IN_SEGMENT + k`, for each `k` and nothing else. -/
def segmentPuts (piecesInSegment : UInt32) (keyOf : UInt64 → Key)
    (notification : ArchivedSegmentNotification Piece) : List (PutValue Key Piece) :=
  notification.pieces.enum.map fun (k, piece) =>
    ⟨keyOf (UInt64.ofNat (notification.segmentIndex.toNat * piecesInSegment.toNat + k)), piece⟩

theorem publishingTask_eq (keyOf : UInt64 → Key) (firstPieceIndex : UInt64) (pieces : List Piece) :
    publishingTask keyOf firstPieceIndex pieces =
      pieces.enum.map fun (k, piece) => ⟨keyOf (firstPieceIndex + UInt64.ofNat k), piece⟩ := by
  simp only [publishingTask, List.enum_eq_zip_range, List.map_map, List.zip_map_left]
  rfl

theorem firstPieceIndex_add (segmentIndex : UInt64) (piecesInSegment : UInt32) (k : Nat) :
    segmentIndex * piecesInSegment.toUInt64 + UInt64.ofNat k =
      UInt64.ofNat (segmentIndex.toNat * piecesInSegment.toNat + k) := by
  have hwiden : piecesInSegment.toUInt64.toNat = piecesInSegment.toNat := rfl
  apply UInt64.ext
  simp only [UInt64.toNat_add, UInt64.toNat_mul, hwiden, toNat_uint64_ofNat, UInt64.size]
  omega

theorem archiverStep_snd (piecesInSegment : UInt32) (keyOf : UInt64 → Key)
    (lastPublishedSegmentIndex : Option UInt64) (notification : ArchivedSegmentNotification Piece) :
    (archiverStep piecesInSegment keyOf lastPublishedSegmentIndex notification).2 =
      some notification.segmentIndex := by
  dsimp only [archiverStep]
  split <;> simp_all

theorem archiverStep_fst (piecesInSegment : UInt32) (keyOf : UInt64 → Key)
    (lastPublishedSegmentIndex : Option UInt64) (notification : ArchivedSegmentNotification Piece) :
    (archiverStep piecesInSegment keyOf lastPublishedSegmentIndex notification).1 =
      if lastPublishedSegmentIndex = some notification.segmentIndex then none
      else some (segmentPuts piecesInSegment keyOf notification) := by
  dsimp only [archiverStep]
  split
  · rfl
  · simp only [publishingTask_eq, firstPieceIndex_add, segmentPuts]

@[simp] theorem length_startDsnArchiver (piecesInSegment : UInt32) (keyOf : UInt64 → Key) :
    ∀ (lastPublishedSegmentIndex : Option UInt64) (notifications : List (ArchivedSegmentNotification Piece)),
      (startDsnArchiver piecesInSegment keyOf lastPublishedSegmentIndex notifications).length =
        notifications.length
  | _, [] => rfl
  | _, _ :: rest => by simp [startDsnArchiver, length_startDsnArchiver piecesInSegment keyOf _ rest]

theorem startDsnArchiver_getElem? (piecesInSegment : UInt32) (keyOf : UInt64 → Key) :
    ∀ (lastPublishedSegmentIndex : Option UInt64) (before : List (ArchivedSegmentNotification Piece))
      (notification : ArchivedSegmentNotification Piece) (after : List (ArchivedSegmentNotification Piece)),
      (startDsnArchiver piecesInSegment keyOf lastPublishedSegmentIndex
          (before ++ notification :: after))[before.length]? =
        some (archiverStep piecesInSegment keyOf
          ((before.getLast?.map (·.segmentIndex)).or lastPublishedSegmentIndex) notification).1
  | _, [], _, _ => by simp [startDsnArchiver]
  | lastPublishedSegmentIndex, previous :: before, notification, after => by
      rw [List.cons_append, startDsnArchiver, List.length_cons, List.getElem?_cons_succ,
        startDsnArchiver_getElem? piecesInSegment keyOf _ before notification after, archiverStep_snd]
      cases before with
      | nil => rfl
      | cons head tail =>
          obtain ⟨last, hlast⟩ : ∃ last, (head :: tail).getLast? = some last :=
            ⟨_, List.getLast?_eq_getLast _ (List.cons_ne_nil _ _)⟩
          rw [List.getLast?_cons_cons, hlast]
          rfl

/-- From the start of `start_dsn_archiver`, notification `t` gets a publishing task exactly when it
is the first or its segment index differs from that of notification `t - 1`, and that task makes
exactly the `put_value` calls of `segmentPuts`. -/
theorem startDsnArchiver_tasks (piecesInSegment : UInt32) (keyOf : UInt64 → Key)
    (notifications : List (ArchivedSegmentNotification Piece)) :
    (startDsnArchiver piecesInSegment keyOf none notifications).length = notifications.length ∧
      ∀ (before : List (ArchivedSegmentNotification Piece))
        (notification : ArchivedSegmentNotification Piece) (after : List (ArchivedSegmentNotification Piece)),
        notifications = before ++ notification :: after →
        (startDsnArchiver piecesInSegment keyOf none notifications)[before.length]? =
          some (if before.getLast?.map (·.segmentIndex) = some notification.segmentIndex then none
            else some (segmentPuts piecesInSegment keyOf notification)) := by
  refine ⟨length_startDsnArchiver piecesInSegment keyOf none notifications, ?_⟩
  rintro before notification after rfl
  rw [startDsnArchiver_getElem?, archiverStep_fst, Option.or_none]

/-! ### The piece request handler of `create_dsn_instance`

`PieceKey` is the key type of the networking crate; `asPieceIndex` is the
`if let PieceKey::PieceIndex(idx)` test on it, and `piece_getter` is a parameter. -/

/-- `PieceByHashResponse` -/
structure PieceByHashResponse (Piece : Type) where
  piece : Option Piece

/-- The closure given to `PieceByHashRequestHandler::create`: a key naming a piece index is looked
up with `piece_getter`, any other key gets no piece, and a response is always sent. -/
def pieceByHashHandler {PieceKey PieceIndex : Type} (asPieceIndex : PieceKey → Option PieceIndex)
    (pieceGetter : PieceIndex → Option Piece) (key : PieceKey) : Option (PieceByHashResponse Piece) :=
  let result :=
    match asPieceIndex key with
    | some idx => pieceGetter idx
    | none => none
  some ⟨result⟩

end Subspace
