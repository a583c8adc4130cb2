import Subspace.Bytes

namespace Subspace

/-! ### The SCALE codec

`Encode` and `Decode` of `parity-scale-codec`, as far as the types of `lib.rs` use them: fixed-size
byte arrays as they are, `u32` and `u64` little-endian, `NonZeroU64` as its `u64`. The derived
codecs of structures write their fields in order, and those of enums a one-byte variant index in
front. -/

/-- A SCALE codec: the bytes of a value, and a decoder that reads a value from the front of its
input and returns it with the bytes left over; `none` is a decoding error. -/
class Scale (α : Type) where
  encode : α → List UInt8
  decode : List UInt8 → Option (α × List UInt8)

namespace Scale

/-- Decoding reads back what encoding wrote, whatever follows, and leaves exactly what follows. -/
def RoundTrip (α : Type) [Scale α] : Prop :=
  ∀ (x : α) (rest : List UInt8), decode (encode x ++ rest) = some (x, rest)

theorem RoundTrip.decode_encode {α : Type} [Scale α] (h : RoundTrip α) (x : α)
    (rest : List UInt8) : decode (encode x ++ rest) = some (x, rest) :=
  h x rest

theorem RoundTrip.bind_decode {α β : Type} [Scale α] (h : RoundTrip α) (x : α)
    (rest : List UInt8) (next : α × List UInt8 → Option β) :
    decode (encode x ++ rest) >>= next = next (x, rest) := by
  rw [h.decode_encode]
  rfl

/-- A codec that reads back what it writes never writes one byte string for two values. -/
theorem RoundTrip.encode_injective {α : Type} [Scale α] (h : RoundTrip α) :
    Function.Injective (encode : α → List UInt8) := by
  intro x y hxy
  have hx := h.decode_encode x []
  rw [hxy, h.decode_encode y []] at hx
  simp only [Option.some.injEq, Prod.mk.injEq, and_true] at hx
  exact hx.symm

/-- `[u8; N]`: the next `N` bytes. -/
def decodeArray (n : Nat) (input : List UInt8) : Option (Mathlib.Vector UInt8 n × List UInt8) :=
  if h : n ≤ input.length then some (⟨input.take n, by simp [h]⟩, input.drop n) else none

instance (n : Nat) : Scale (Mathlib.Vector UInt8 n) := ⟨Mathlib.Vector.toList, decodeArray n⟩

theorem decodeArray_append {n : Nat} (bytes : Mathlib.Vector UInt8 n) (rest : List UInt8) :
    decodeArray n (bytes.toList ++ rest) = some (bytes, rest) := by
  have hlength := bytes.toList_length
  rw [decodeArray, dif_pos (by simp [hlength])]
  simp only [List.take_left' hlength, List.drop_left' hlength]
  rfl

theorem roundTrip_array (n : Nat) : RoundTrip (Mathlib.Vector UInt8 n) :=
  decodeArray_append

end Scale

namespace FixedWidth

variable {α : Type} {w : Nat} (width : FixedWidth α w)

/-- The codec of a fixed-width integer, `u32` or `u64`: its `to_le_bytes`, read back with
`from_le_bytes`. -/
def scale : Scale α where
  encode x := (width.toLeBytes x).toList
  decode input :=
    (Scale.decodeArray w input).map fun (bytes, rest) => (width.fromLeBytes bytes, rest)

theorem roundTrip : @Scale.RoundTrip α width.scale := fun x rest => by
  show (Scale.decodeArray w ((width.toLeBytes x).toList ++ rest)).map _ = _
  rw [Scale.decodeArray_append]
  simp [width.fromLeBytes_toLeBytes]

end FixedWidth

instance : Scale UInt32 := uint32Width.scale

instance : Scale UInt64 := uint64Width.scale

/-- `NonZeroU64` -/
structure NonZeroU64 where
  get : UInt64
  ne_zero : get ≠ 0
deriving DecidableEq

/-- `NonZeroU64::new` -/
def NonZeroU64.new (n : UInt64) : Option NonZeroU64 :=
  if h : n = 0 then none else some ⟨n, h⟩

/-- The codec of `NonZeroU64`: its `u64`, and a decoding error on zero. -/
instance : Scale NonZeroU64 where
  encode x := Scale.encode x.get
  decode input := do
    let (n, rest) ← Scale.decode input
    let x ← NonZeroU64.new n
    pure (x, rest)

theorem NonZeroU64.new_get (x : NonZeroU64) : NonZeroU64.new x.get = some x := by
  simp [NonZeroU64.new, x.ne_zero]

theorem Scale.roundTrip_nonZeroU64 : Scale.RoundTrip NonZeroU64 := fun x rest => by
  show (Scale.decode (Scale.encode x.get ++ rest) >>= _) = _
  rw [uint64Width.roundTrip.decode_encode]
  simp [NonZeroU64.new_get]

end Subspace
