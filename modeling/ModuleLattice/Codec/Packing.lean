import ModuleLattice.Blocks
import ModuleLattice.Word

/-!
# Packings

The values of a polynomial are written one behind the other with no bits between them. A group of values that fills whole bytes
is packed by itself: a byte is put together from the high bits of the values that began in an earlier byte and the low bits of
the values that begin in it, and a value is put together from the bytes it lies in. Every number of bits has its own group and
its own shifts; `Packing` keeps the two directions of one group together, and `write` and `read` take a polynomial through them
group by group.
-/

namespace ModuleLattice

/-- How 256 values of `bits` bits are packed, one group at a time. -/
structure Packing (bits : Nat) where
  groups : Nat
  groupValues : Nat
  groupBytes : Nat
  pack : Vector UInt16 groupValues → Vector UInt8 groupBytes
  unpack : Vector UInt8 groupBytes → Vector UInt16 groupValues
  values_cover : 256 = groups * groupValues
  bytes_cover : 32 * bits = groups * groupBytes

namespace Packing

/-- Eight values of one bit in one byte. -/
def one : Packing 1 where
  groups := 32
  groupValues := 8
  groupBytes := 1
  pack s := #v[(List.finRange 8).foldl (fun byte j => byte ||| ((s.get j).toUInt8 <<< UInt8.ofNat j.val)) 0]
  unpack b := Vector.ofFn fun j => ((b.get (Fin.last 0) >>> UInt8.ofNat j.val) &&& 1).toUInt16
  values_cover := rfl
  bytes_cover := rfl

/-- Two values of four bits in one byte. -/
def four : Packing 4 where
  groups := 128
  groupValues := 2
  groupBytes := 1
  pack s := #v[(s.get 0).toUInt8 ||| ((s.get 1).toUInt8 <<< 4)]
  unpack b :=
    let byte := b.get (Fin.last 0)
    #v[byte &&& 0x0F, byte >>> 4].map UInt8.toUInt16
  values_cover := rfl
  bytes_cover := rfl

/-- Eight values of five bits in five bytes. -/
def five : Packing 5 where
  groups := 32
  groupValues := 8
  groupBytes := 5
  pack t :=
    let s := t.map UInt16.toUInt8
    #v[s.get 0 ||| (s.get 1 <<< 5),
      (s.get 1 >>> 3) ||| (s.get 2 <<< 2) ||| (s.get 3 <<< 7),
      (s.get 3 >>> 1) ||| (s.get 4 <<< 4),
      (s.get 4 >>> 4) ||| (s.get 5 <<< 1) ||| (s.get 6 <<< 6),
      (s.get 6 >>> 2) ||| (s.get 7 <<< 3)]
  unpack b :=
    #v[b.get 0 &&& 0x1F,
      (b.get 0 >>> 5) ||| ((b.get 1 &&& 0x03) <<< 3),
      (b.get 1 >>> 2) &&& 0x1F,
      (b.get 1 >>> 7) ||| ((b.get 2 &&& 0x0F) <<< 1),
      (b.get 2 >>> 4) ||| ((b.get 3 &&& 0x01) <<< 4),
      (b.get 3 >>> 1) &&& 0x1F,
      (b.get 3 >>> 6) ||| ((b.get 4 &&& 0x07) <<< 2),
      b.get 4 >>> 3].map UInt8.toUInt16
  values_cover := rfl
  bytes_cover := rfl

/-- Four values of ten bits in five bytes. -/
def ten : Packing 10 where
  groups := 64
  groupValues := 4
  groupBytes := 5
  pack s :=
    #v[s.get 0,
      (s.get 0 >>> 8) ||| (s.get 1 <<< 2),
      (s.get 1 >>> 6) ||| (s.get 2 <<< 4),
      (s.get 2 >>> 4) ||| (s.get 3 <<< 6),
      s.get 3 >>> 2].map UInt16.toUInt8
  unpack c :=
    let b := c.map UInt8.toUInt16
    #v[b.get 0 ||| ((b.get 1 &&& 0x03) <<< 8),
      (b.get 1 >>> 2) ||| ((b.get 2 &&& 0x0F) <<< 6),
      (b.get 2 >>> 4) ||| ((b.get 3 &&& 0x3F) <<< 4),
      (b.get 3 >>> 6) ||| (b.get 4 <<< 2)]
  values_cover := rfl
  bytes_cover := rfl

/-- Eight values of eleven bits in eleven bytes. -/
def eleven : Packing 11 where
  groups := 32
  groupValues := 8
  groupBytes := 11
  pack s :=
    #v[s.get 0,
      (s.get 0 >>> 8) ||| (s.get 1 <<< 3),
      (s.get 1 >>> 5) ||| (s.get 2 <<< 6),
      s.get 2 >>> 2,
      (s.get 2 >>> 10) ||| (s.get 3 <<< 1),
      (s.get 3 >>> 7) ||| (s.get 4 <<< 4),
      (s.get 4 >>> 4) ||| (s.get 5 <<< 7),
      s.get 5 >>> 1,
      (s.get 5 >>> 9) ||| (s.get 6 <<< 2),
      (s.get 6 >>> 6) ||| (s.get 7 <<< 5),
      s.get 7 >>> 3].map UInt16.toUInt8
  unpack c :=
    let b := c.map UInt8.toUInt16
    #v[b.get 0 ||| ((b.get 1 &&& 0x07) <<< 8),
      (b.get 1 >>> 3) ||| ((b.get 2 &&& 0x3F) <<< 5),
      (b.get 2 >>> 6) ||| (b.get 3 <<< 2) ||| ((b.get 4 &&& 0x01) <<< 10),
      (b.get 4 >>> 1) ||| ((b.get 5 &&& 0x0F) <<< 7),
      (b.get 5 >>> 4) ||| ((b.get 6 &&& 0x7F) <<< 4),
      (b.get 6 >>> 7) ||| (b.get 7 <<< 1) ||| ((b.get 8 &&& 0x03) <<< 9),
      (b.get 8 >>> 2) ||| ((b.get 9 &&& 0x1F) <<< 6),
      (b.get 9 >>> 5) ||| (b.get 10 <<< 3)]
  values_cover := rfl
  bytes_cover := rfl

/-- Two values of twelve bits in three bytes. -/
def twelve : Packing 12 where
  groups := 128
  groupValues := 2
  groupBytes := 3
  pack s := #v[s.get 0, (s.get 0 >>> 8) ||| (s.get 1 <<< 4), s.get 1 >>> 4].map UInt16.toUInt8
  unpack c :=
    let b := c.map UInt8.toUInt16
    #v[b.get 0 ||| ((b.get 1 &&& 0x0F) <<< 8), (b.get 1 >>> 4) ||| (b.get 2 <<< 4)]
  values_cover := rfl
  bytes_cover := rfl

variable {bits : Nat}

/-- 256 values packed, group after group. -/
def write (p : Packing bits) (values : Vector UInt16 256) : Vector UInt8 (32 * bits) :=
  let packed := Vector.ofFn fun g => p.pack (block p.groups p.groupValues (values.cast p.values_cover) g)
  packed.flatten.cast p.bytes_cover.symm

/-- The bytes of group `g`; a byte string that is too short is read as if zeros followed it. -/
def groupAt (p : Packing bits) (bytes : Bytes) (g : Nat) : Vector UInt8 p.groupBytes :=
  Vector.ofFn fun j => bytes.getD (g * p.groupBytes + j.val) 0

/-- 256 values unpacked, group after group. -/
def read (p : Packing bits) (bytes : Bytes) : Vector UInt16 256 :=
  let values := Vector.ofFn fun g : Fin p.groups => p.unpack (p.groupAt bytes g.val)
  values.flatten.cast p.values_cover.symm

end Packing

end ModuleLattice
