/-
# Bytecode files

A bytecode file is a header of three 32-bit numbers (the magic number, the
version and the count of words) and the words, three bytes each, all with the
low byte first. `Image.toBytes` gives the bytes of an image, and `Image.ofBytes`
accepts a file only if its header is the one of this version and its length is
the one that the count asks for. `Image.write` puts an image out to a `Sink`,
in one piece when all of its words are known to be good.

Key definitions: `Image`, `Image.toBytes`, `Image.ofBytes`, `Image.hasMagic`,
`Sink`, `Image.write`.
Key lemmas: `Image.littleEndian_length`.
-/
import RegisterMachine.Assembly.Symbols
import RegisterMachine.Bytecode.Word

namespace RegisterMachine

/-- The number that a bytecode file begins with: the bytes `RVM` and 1. -/
def bytecodeMagic : UInt32 := 0x014D5652

/-- The version of the file format. -/
def bytecodeVersion : UInt32 := 1

/-- The content of a bytecode file. -/
structure Image where
  magic : UInt32 := bytecodeMagic
  version : UInt32 := bytecodeVersion
  code : List Word := []
deriving DecidableEq, Repr, Inhabited

/-- Why an image is not written. -/
inductive ImageWriteError where
  /-- It has more words than a program may have. -/
  | tooLong (length : Nat)
  /-- The word at this index has more than 24 bits. -/
  | wideWord (index : Nat)
  /-- The bytes could not be put out. -/
  | output
deriving DecidableEq, Repr, Inhabited

/-- Why a file is no bytecode file. -/
inductive ImageReadError where
  | truncatedHeader
  | badMagic
  | badVersion (version : UInt32)
  | tooLong (count : UInt32)
  | truncatedBody
  | trailingBytes (count : Nat)
deriving DecidableEq, Repr, Inhabited

/-- The message that reports why an image is not written. -/
def ImageWriteError.message : ImageWriteError → Bytes
  | tooLong length =>
    ascii "program has " ++ Numeral.decimal length ++ ascii " instructions; the limit is "
      ++ Numeral.decimal maxProgramLength
  | wideWord index => ascii "word " ++ Numeral.decimal index ++ ascii " exceeds 24 bits"
  | output => ascii "failed to write bytecode"

/-- The message that reports why a file is no bytecode file. -/
def ImageReadError.message : ImageReadError → Bytes
  | truncatedHeader => ascii "truncated bytecode header"
  | badMagic => ascii "not a regvm bytecode file (bad magic)"
  | badVersion version =>
    ascii "unsupported bytecode version " ++ Numeral.decimal version.toNat
  | tooLong count =>
    ascii "instruction count " ++ Numeral.decimal count.toNat ++ ascii " exceeds limit"
  | truncatedBody => ascii "truncated bytecode body"
  | trailingBytes count => Numeral.decimal count ++ ascii " trailing bytes after bytecode"

/-- A place that bytes are put out to, with those that have been. Once it has failed it takes no
more. -/
structure Sink where
  failed : Bool := false
  bytes : Bytes := []
deriving DecidableEq, Repr, Inhabited

/-- The place after more bytes were put out to it. -/
def Sink.put (sink : Sink) (more : Bytes) : Sink :=
  if sink.failed then sink else { sink with bytes := sink.bytes ++ more }

namespace Image

/-- A number in `width` bytes, the low byte first. -/
def littleEndian : Nat → UInt32 → Bytes
  | 0, _ => []
  | width + 1, value => value.toUInt8 :: littleEndian width (value >>> 8)

/-- The number of some bytes, the low byte first. -/
def ofLittleEndian : Bytes → UInt32
  | [] => 0
  | low :: rest => low.toUInt32 ||| (ofLittleEndian rest <<< 8)

/-- The length of the header in bytes. -/
def headerLength : Nat := 12

/-- The length of a word in bytes. -/
def wordLength : Nat := 3

/-- The bytes of an image. -/
def toBytes (image : Image) : Except ImageWriteError Bytes :=
  if image.code.length > maxProgramLength then .error (.tooLong image.code.length)
  else
    match image.code.findIdx? (!·.fits) with
    | some index => .error (.wideWord index)
    | none =>
      .ok (littleEndian 4 image.magic ++ littleEndian 4 image.version
        ++ littleEndian 4 image.code.length.toUInt32
        ++ image.code.flatMap (littleEndian wordLength))

/-- Puts an image out to a place. -/
def write (image : Image) (sink : Sink) : Except ImageWriteError Unit × Sink :=
  match image.toBytes with
  | .error error => (.error error, sink)
  | .ok bytes =>
    let after := sink.put bytes
    (if after.failed then .error .output else .ok (), after)

/-- The first `count` words of some bytes. -/
def words : Nat → Bytes → List Word
  | 0, _ => []
  | count + 1, bytes =>
    ofLittleEndian (bytes.take wordLength) :: words count (bytes.drop wordLength)

/-- The image that a file holds. -/
def ofBytes (bytes : Bytes) : Except ImageReadError Image :=
  if bytes.length < headerLength then .error .truncatedHeader
  else
    let number (offset : Nat) : UInt32 := ofLittleEndian ((bytes.drop offset).take 4)
    let magic := number 0
    let version := number 4
    let count := number 8
    let body := bytes.drop headerLength
    let expected := count.toNat * wordLength
    if magic ≠ bytecodeMagic then .error .badMagic
    else if version ≠ bytecodeVersion then .error (.badVersion version)
    else if count.toNat > maxProgramLength then .error (.tooLong count)
    else if body.length < expected then .error .truncatedBody
    else if body.length > expected then .error (.trailingBytes (body.length - expected))
    else .ok { magic, version, code := words count.toNat body }

/-- The file begins as a bytecode file does. -/
def hasMagic (bytes : Bytes) : Bool :=
  4 ≤ bytes.length && ofLittleEndian (bytes.take 4) == bytecodeMagic

@[simp] theorem littleEndian_length (width : Nat) (value : UInt32) :
    (littleEndian width value).length = width := by
  induction width generalizing value with
  | zero => rfl
  | succ width ih => simp [littleEndian, ih]

end Image
end RegisterMachine
