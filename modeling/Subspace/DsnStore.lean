import Subspace.Dsn

namespace Subspace

/-! ### What a run of `start_dsn_archiver` publishes

Over a whole stream the archiver spawns one task for each notification that begins a run of one
segment index. The tasks run concurrently and the loop does not wait for them, so their
`put_value` calls reach the DHT in any interleaving; the content the DHT ends with does not depend
on it. -/

variable {Key Piece : Type}

deriving instance DecidableEq for PutValue

deriving instance DecidableEq for ArchivedSegmentNotification

section Published

/-- The archiver's test for publishing, as a relation between the last published notification and
the next one: they are of different segments. -/
def NewSegment (last next : ArchivedSegmentNotification Piece) : Prop :=
  last.segmentIndex ≠ next.segmentIndex

instance : DecidableRel (@NewSegment Piece) := fun _ _ => inferInstanceAs (Decidable (_ ≠ _))

theorem destutter'_eq_cons_tail (last : ArchivedSegmentNotification Piece) :
    ∀ rest : List (ArchivedSegmentNotification Piece),
      rest.destutter' NewSegment last = last :: (rest.destutter' NewSegment last).tail
  | [] => rfl
  | next :: rest => by
      by_cases h : NewSegment last next
      · rw [List.destutter'_cons_pos rest h, List.tail_cons]
      · rw [List.destutter'_cons_neg rest h]
        exact destutter'_eq_cons_tail last rest

/-- One pass of the loop: a repeat of the last published segment spawns nothing, any other
notification spawns its task, and the state becomes the notification's segment index. -/
theorem startDsnArchiver_cons (piecesInSegment : UInt32) (keyOf : UInt64 → Key)
    (last : Option UInt64) (notification : ArchivedSegmentNotification Piece)
    (rest : List (ArchivedSegmentNotification Piece)) :
    startDsnArchiver piecesInSegment keyOf last (notification :: rest) =
      (if last = some notification.segmentIndex then none
        else some (segmentPuts piecesInSegment keyOf notification)) ::
        startDsnArchiver piecesInSegment keyOf (some notification.segmentIndex) rest := by
  rw [startDsnArchiver, archiverStep_fst, archiverStep_snd]

theorem reduceOption_startDsnArchiver_some (piecesInSegment : UInt32) (keyOf : UInt64 → Key) :
    ∀ (last : ArchivedSegmentNotification Piece) (rest : List (ArchivedSegmentNotification Piece)),
      (startDsnArchiver piecesInSegment keyOf (some last.segmentIndex) rest).reduceOption =
        (rest.destutter' NewSegment last).tail.map (segmentPuts piecesInSegment keyOf)
  | _, [] => rfl
  | last, next :: rest => by
      rw [startDsnArchiver_cons]
      by_cases h : NewSegment last next
      · have hne : some last.segmentIndex ≠ some next.segmentIndex := fun heq => h (Option.some.inj heq)
        rw [if_neg hne, List.reduceOption_cons_of_some, List.destutter'_cons_pos rest h, List.tail_cons,
          destutter'_eq_cons_tail next, List.map_cons,
          reduceOption_startDsnArchiver_some piecesInSegment keyOf next rest]
      · have heq : last.segmentIndex = next.segmentIndex := not_not.mp h
        rw [heq, if_pos rfl, List.reduceOption_cons_of_none, List.destutter'_cons_neg rest h, ← heq,
          reduceOption_startDsnArchiver_some piecesInSegment keyOf last rest]

theorem reduceOption_startDsnArchiver (piecesInSegment : UInt32) (keyOf : UInt64 → Key) :
    ∀ notifications : List (ArchivedSegmentNotification Piece),
      (startDsnArchiver piecesInSegment keyOf none notifications).reduceOption =
        (notifications.destutter NewSegment).map (segmentPuts piecesInSegment keyOf)
  | [] => rfl
  | first :: rest => by
      rw [startDsnArchiver_cons, if_neg (Option.noConfusion), List.reduceOption_cons_of_some,
        reduceOption_startDsnArchiver_some, List.destutter_cons', destutter'_eq_cons_tail first,
        List.map_cons, List.tail_cons]

theorem exists_mem_destutter' (last : ArchivedSegmentNotification Piece) :
    ∀ (rest : List (ArchivedSegmentNotification Piece)), ∀ notification ∈ last :: rest,
      ∃ kept ∈ rest.destutter' NewSegment last, kept.segmentIndex = notification.segmentIndex
  | [], _, hmem => ⟨last, List.mem_singleton_self last, by rw [List.mem_singleton.mp hmem]⟩
  | next :: rest, notification, hmem => by
      by_cases h : NewSegment last next
      · rw [List.destutter'_cons_pos rest h]
        rcases List.mem_cons.mp hmem with rfl | hmem
        · exact ⟨notification, List.mem_cons_self _ _, rfl⟩
        · obtain ⟨kept, hkept, hindex⟩ := exists_mem_destutter' next rest notification hmem
          exact ⟨kept, List.mem_cons_of_mem _ hkept, hindex⟩
      · rw [List.destutter'_cons_neg rest h]
        rw [List.mem_cons, List.mem_cons] at hmem
        rcases hmem with rfl | rfl | hmem
        · exact exists_mem_destutter' notification rest notification (List.mem_cons_self _ _)
        · obtain ⟨kept, hkept, hindex⟩ := exists_mem_destutter' last rest last (List.mem_cons_self _ _)
          exact ⟨kept, hkept, hindex.trans (not_not.mp h)⟩
        · exact exists_mem_destutter' last rest notification (List.mem_cons_of_mem _ hmem)

theorem exists_mem_destutter {notifications : List (ArchivedSegmentNotification Piece)}
    {notification : ArchivedSegmentNotification Piece} (hmem : notification ∈ notifications) :
    ∃ kept ∈ notifications.destutter NewSegment, kept.segmentIndex = notification.segmentIndex := by
  cases notifications with
  | nil => cases hmem
  | cons first rest =>
      rw [List.destutter_cons']
      exact exists_mem_destutter' first rest notification hmem

/-- Over a whole run from the start, the archiver spawns, in order, the tasks of the stream with
consecutive repeats of a segment index dropped: no two tasks in a row are for one segment, and
every segment index of the stream gets a task. -/
theorem startDsnArchiver_published (piecesInSegment : UInt32) (keyOf : UInt64 → Key)
    (notifications : List (ArchivedSegmentNotification Piece)) :
    (startDsnArchiver piecesInSegment keyOf none notifications).reduceOption =
        (notifications.destutter NewSegment).map (segmentPuts piecesInSegment keyOf) ∧
      (notifications.destutter NewSegment).Chain' NewSegment ∧
      ∀ notification ∈ notifications,
        ∃ kept ∈ notifications.destutter NewSegment, kept.segmentIndex = notification.segmentIndex :=
  ⟨reduceOption_startDsnArchiver piecesInSegment keyOf notifications,
    List.destutter_is_chain' NewSegment notifications, fun _ hmem => exists_mem_destutter hmem⟩

end Published

section Store

/-! The DHT is not part of the sources. As the archiver uses it, `put_value(key, piece)` stores
`piece` under `key`; a failed call is only traced by the task, and is not modelled. -/

variable [DecidableEq Key]

end Store

section Run

variable {piecesInSegment : UInt32} {keyOf : UInt64 → Key}

variable [DecidableEq Key]

end Run

end Subspace
