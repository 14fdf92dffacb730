import ApexStorm.ByteArray.Basic
import ApexStorm.Lib.Radix

/-!
# Typed reads and writes

The byte order of the host is the parameter `host`. A fixed-width integer is the
natural number of its bit pattern, stored in host order and swapped first when the
array's byte order is the other one. `float` and `double` are their bit patterns,
`std::string` is its bytes, and its size is a `size_t`.
-/

namespace ApexStorm.ByteArray
open Lib.Radix

def byteswap (n value : ℕ) : ℕ := ofLeBytes (leBytes n value).reverse

def toMemory (host : Endian) (n value : ℕ) : List UInt8 :=
  match host with
  | .little => leBytes n value
  | .big => (leBytes n value).reverse

theorem toMemory_length (e : Endian) (n v : ℕ) : (toMemory e n v).length = n := by
  cases e <;> simp [toMemory]

def ofMemory (host : Endian) (bytes : List UInt8) : ℕ :=
  match host with
  | .little => ofLeBytes bytes
  | .big => ofLeBytes bytes.reverse

def writeFixed (host : Endian) (n value : ℕ) : Method Unit := do
  let ba ← get
  let value := if ba.endian ≠ host then byteswap n value else value
  write (toMemory host n value)

def readFixed (host : Endian) (n : ℕ) : Method ℕ := do
  let bytes ← read n
  let v := ofMemory host bytes
  let ba ← get
  if ba.endian = host then return v else return byteswap n v

def encodeZigzag {w : ℕ} (v : BitVec w) : BitVec w := if v.slt 0 then -v * 2 - 1 else v * 2

def decodeZigzag {w : ℕ} (v : BitVec w) : BitVec w := (v >>> 1) ^^^ -(v &&& 1)

/-- The bytes put into a `tmp` array with `slots` places, `none` when they do not fit. -/
def encodeVarint : ℕ → ℕ → Option (List UInt8)
  | 0, _ => none
  | slots + 1, value =>
    if value ≥ 0x80 then do
      let rest ← encodeVarint slots (value >>> 7)
      return UInt8.ofNat (value &&& 0x7F ||| 0x80) :: rest
    else some [UInt8.ofNat value]

def writeVarint (slots value : ℕ) : Method Unit :=
  match encodeVarint slots value with
  | none => throw .overrun
  | some tmp => write tmp

def writeFint8 (value : Int8) : Method Unit := write [value.toUInt8]
def writeFuint8 (value : UInt8) : Method Unit := write [value]

def readFuint8 : Method UInt8 := return (← read 1).headD 0
def readFint8 : Method Int8 := return (← readFuint8).toInt8

def varintLoop (bits : ℕ) : ℕ → ℕ → ℕ → Method ℕ
  | fuel, i, result =>
    if i < bits then
      match fuel with
      | 0 => throw .stuck
      | fuel + 1 => do
        let b ← readFuint8
        if b < 0x80 then
          return result ||| (b.toNat <<< i) % 2 ^ bits
        else
          varintLoop bits fuel (i + 7) (result ||| ((b.toNat &&& 0x7f) <<< i) % 2 ^ bits)
    else return result

def writeUint32 (value : UInt32) : Method Unit := writeVarint 5 value.toNat
def writeUint64 (value : UInt64) : Method Unit := writeVarint 10 value.toNat
def writeInt32 (value : Int32) : Method Unit :=
  writeUint32 (.ofBitVec (encodeZigzag value.toBitVec))
def writeInt64 (value : Int64) : Method Unit :=
  writeUint64 (.ofBitVec (encodeZigzag value.toBitVec))

def readUint32 : Method UInt32 := return UInt32.ofNat (← varintLoop 32 32 0 0)
def readUint64 : Method UInt64 := return UInt64.ofNat (← varintLoop 64 64 0 0)
def readInt32 : Method Int32 := return .ofBitVec (decodeZigzag (← readUint32).toBitVec)
def readInt64 : Method Int64 := return .ofBitVec (decodeZigzag (← readUint64).toBitVec)

section host
variable (host : Endian)

def writeFint16 (value : Int16) : Method Unit := writeFixed host 2 value.toUInt16.toNat
def writeFuint16 (value : UInt16) : Method Unit := writeFixed host 2 value.toNat
def writeFint32 (value : Int32) : Method Unit := writeFixed host 4 value.toUInt32.toNat
def writeFuint32 (value : UInt32) : Method Unit := writeFixed host 4 value.toNat
def writeFint64 (value : Int64) : Method Unit := writeFixed host 8 value.toUInt64.toNat
def writeFuint64 (value : UInt64) : Method Unit := writeFixed host 8 value.toNat

def readFint16 : Method Int16 := return (UInt16.ofNat (← readFixed host 2)).toInt16
def readFuint16 : Method UInt16 := return UInt16.ofNat (← readFixed host 2)
def readFint32 : Method Int32 := return (UInt32.ofNat (← readFixed host 4)).toInt32
def readFuint32 : Method UInt32 := return UInt32.ofNat (← readFixed host 4)
def readFint64 : Method Int64 := return (UInt64.ofNat (← readFixed host 8)).toInt64
def readFuint64 : Method UInt64 := return UInt64.ofNat (← readFixed host 8)

def writeFloat (value : UInt32) : Method Unit := writeFuint32 host value
def writeDouble (value : UInt64) : Method Unit := writeFuint64 host value
def readFloat : Method UInt32 := readFuint32 host
def readDouble : Method UInt64 := readFuint64 host

def writeStringF16 (value : List UInt8) : Method Unit := do
  writeFuint16 host (UInt16.ofNat value.length)
  write value

def writeStringF32 (value : List UInt8) : Method Unit := do
  writeFuint32 host (UInt32.ofNat value.length)
  write value

def writeStringF64 (value : List UInt8) : Method Unit := do
  writeFuint64 host (UInt64.ofNat value.length)
  write value

/-- Despite the name the size goes out as a fixed 64-bit integer, as in `writeStringF64`. -/
def writeStringVint (value : List UInt8) : Method Unit := do
  writeFuint64 host (UInt64.ofNat value.length)
  write value

def writeStringWithoutLength (value : List UInt8) : Method Unit := write value

/-- `buff.resize(len)` and the read that follows unless the buffer is empty. -/
def readChars (len : ℕ) : Method (List UInt8) :=
  if len = 0 then return [] else read len

def readStringF16 : Method (List UInt8) := do readChars (← readFuint16 host).toNat
def readStringF32 : Method (List UInt8) := do readChars (← readFuint32 host).toNat
def readStringF64 : Method (List UInt8) := do readChars (← readFuint64 host).toNat
def readStringVint : Method (List UInt8) := do readChars (← readFuint64 host).toNat

end host

inductive Kind
  | fint8 | fuint8 | fint16 | fuint16 | fint32 | fuint32 | fint64 | fuint64
  | int32 | uint32 | int64 | uint64 | float | double
  | stringF16 | stringF32 | stringF64 | stringVint
  deriving DecidableEq, Repr

abbrev Kind.Value : Kind → Type
  | .fint8 => Int8
  | .fuint8 => UInt8
  | .fint16 => Int16
  | .fuint16 => UInt16
  | .fint32 | .int32 => Int32
  | .fuint32 | .uint32 | .float => UInt32
  | .fint64 | .int64 => Int64
  | .fuint64 | .uint64 | .double => UInt64
  | .stringF16 | .stringF32 | .stringF64 | .stringVint => List UInt8

abbrev Item := (k : Kind) × k.Value

def Kind.write (host : Endian) : (k : Kind) → k.Value → Method Unit
  | .fint8 => writeFint8
  | .fuint8 => writeFuint8
  | .fint16 => writeFint16 host
  | .fuint16 => writeFuint16 host
  | .fint32 => writeFint32 host
  | .fuint32 => writeFuint32 host
  | .fint64 => writeFint64 host
  | .fuint64 => writeFuint64 host
  | .int32 => writeInt32
  | .uint32 => writeUint32
  | .int64 => writeInt64
  | .uint64 => writeUint64
  | .float => writeFloat host
  | .double => writeDouble host
  | .stringF16 => writeStringF16 host
  | .stringF32 => writeStringF32 host
  | .stringF64 => writeStringF64 host
  | .stringVint => writeStringVint host

def Kind.read (host : Endian) : (k : Kind) → Method k.Value
  | .fint8 => readFint8
  | .fuint8 => readFuint8
  | .fint16 => readFint16 host
  | .fuint16 => readFuint16 host
  | .fint32 => readFint32 host
  | .fuint32 => readFuint32 host
  | .fint64 => readFint64 host
  | .fuint64 => readFuint64 host
  | .int32 => readInt32
  | .uint32 => readUint32
  | .int64 => readInt64
  | .uint64 => readUint64
  | .float => readFloat host
  | .double => readDouble host
  | .stringF16 => readStringF16 host
  | .stringF32 => readStringF32 host
  | .stringF64 => readStringF64 host
  | .stringVint => readStringVint host

/-- The size of a string fits its length field; a `std::string` has fewer than `2^64` bytes. -/
def Item.Fits : Item → Prop
  | ⟨.stringF16, s⟩ => s.length < 2 ^ 16
  | ⟨.stringF32, s⟩ => s.length < 2 ^ 32
  | ⟨.stringF64, s⟩ => s.length < 2 ^ 64
  | ⟨.stringVint, s⟩ => s.length < 2 ^ 64
  | _ => True

def writeAll (host : Endian) : List Item → Method Unit
  | [] => pure ()
  | ⟨k, v⟩ :: items => do
    k.write host v
    writeAll host items

def readAll (host : Endian) : List Kind → Method (List Item)
  | [] => pure []
  | k :: ks => do
    let v ← k.read host
    return ⟨k, v⟩ :: (← readAll host ks)

end ApexStorm.ByteArray
