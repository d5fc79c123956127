/-
# Bytecode files are read as they are written

Numbers of up to four bytes are read back from their bytes, and bytes from
their number, so the header and the words of a file are too. The count in the
header says where the file has to end. With that a file is accepted if and only
if it is what is written for an image of this version, no longer than a program
may be and of words of 24 bits.

The count also keeps accepted files apart. None of them is the beginning of
another one (`Image.eq_of_prefix_of_ofBytes`), and of one length there is only
one header (`Image.take_headerLength_eq_of_ofBytes`), so a file that is cut
short, made longer or given another header is refused.

Key definitions: `Image.layout`, `Image.Writable`, `Image.Writes`.
Key theorems: `Image.toBytes_eq_ok_iff`, `Image.ofBytes_layout`,
`Image.layout_of_ofBytes`, `Image.inverse_write_ofBytes`.
-/
import Mathlib.Data.List.Basic
import RegisterMachine.Bytecode.Image
import RegisterMachine.Proofs.Fields
import RegisterMachine.Proofs.Pointwise

namespace RegisterMachine
namespace Image

/-! ### Numbers in bytes -/

/-- One more byte in front is one more digit below. -/
theorem toNat_ofLittleEndian_cons (low : UInt8) {rest : Bytes}
    (h : (ofLittleEndian rest).toNat < 2 ^ 24) :
    (ofLittleEndian (low :: rest)).toNat = low.toNat + 256 * (ofLittleEndian rest).toNat := by
  have hlow : low.toNat < 2 ^ 8 := UInt8.toNat_lt low
  have hshift : (ofLittleEndian rest <<< 8).toNat = (ofLittleEndian rest).toNat <<< 8 := by
    rw [UInt32.toNat_shiftLeft]
    refine Nat.mod_eq_of_lt ?_
    show (ofLittleEndian rest).toNat <<< 8 < 2 ^ 32
    rw [Nat.shiftLeft_eq]
    omega
  rw [ofLittleEndian, UInt32.toNat_or, hshift, UInt8.toNat_toUInt32, Nat.or_comm,
    ← Nat.shiftLeft_add_eq_or_of_lt hlow, Nat.shiftLeft_eq]
  omega

theorem toNat_ofLittleEndian_lt : ∀ (bytes : Bytes), bytes.length ≤ 4 →
    (ofLittleEndian bytes).toNat < 256 ^ bytes.length
  | [], _ => by decide
  | low :: rest, h => by
    rw [List.length_cons] at h
    have ih := toNat_ofLittleEndian_lt rest (by omega)
    have hpow : 256 ^ rest.length ≤ 256 ^ 3 := Nat.pow_le_pow_right (by omega) (by omega)
    have hlow : low.toNat < 256 := UInt8.toNat_lt low
    rw [toNat_ofLittleEndian_cons low (by omega), List.length_cons, Nat.pow_succ]
    omega

theorem toNat_shiftRight_eight (value : UInt32) : (value >>> 8).toNat = value.toNat / 256 := by
  rw [UInt32.toNat_shiftRight, Nat.shiftRight_eq_div_pow]
  rfl

theorem ofLittleEndian_littleEndian : ∀ (width : Nat) {value : UInt32},
    value.toNat < 256 ^ width → ofLittleEndian (littleEndian width value) = value
  | 0, value, h => by
    have : value.toNat = 0 := by simpa using h
    exact (UInt32.toNat_inj.mp this).symm
  | width + 1, value, h => by
    rw [Nat.pow_succ] at h
    have hrest : (value >>> 8).toNat < 256 ^ width := by
      rw [toNat_shiftRight_eight]
      omega
    have ih := ofLittleEndian_littleEndian width hrest
    have hvalue : value.toNat < 2 ^ 32 := UInt32.toNat_lt value
    rw [← UInt32.toNat_inj, littleEndian, toNat_ofLittleEndian_cons, ih, toNat_shiftRight_eight,
      UInt32.toNat_toUInt8]
    · omega
    · rw [ih, toNat_shiftRight_eight]
      omega

theorem littleEndian_ofLittleEndian : ∀ (bytes : Bytes), bytes.length ≤ 4 →
    littleEndian bytes.length (ofLittleEndian bytes) = bytes
  | [], _ => rfl
  | low :: rest, h => by
    rw [List.length_cons] at h
    have hrest := toNat_ofLittleEndian_lt rest (by omega)
    have hpow : 256 ^ rest.length ≤ 256 ^ 3 := Nat.pow_le_pow_right (by omega) (by omega)
    have hlow : low.toNat < 256 := UInt8.toNat_lt low
    have hcons : (ofLittleEndian (low :: rest)).toNat =
        low.toNat + 256 * (ofLittleEndian rest).toNat := toNat_ofLittleEndian_cons low (by omega)
    have hbyte : (ofLittleEndian (low :: rest)).toUInt8 = low := by
      rw [← UInt8.toNat_inj, UInt32.toNat_toUInt8, hcons]
      omega
    have hshift : ofLittleEndian (low :: rest) >>> 8 = ofLittleEndian rest := by
      rw [← UInt32.toNat_inj, toNat_shiftRight_eight, hcons]
      omega
    rw [List.length_cons, littleEndian, hbyte, hshift,
      littleEndian_ofLittleEndian rest (by omega)]

/-! ### The words of a file -/

theorem words_flatMap_littleEndian : ∀ {code : List Word},
    (∀ w ∈ code, w.toNat < 2 ^ 24) →
    words code.length (code.flatMap (littleEndian wordLength)) = code
  | [], _ => rfl
  | w :: rest, h => by
    have hw : w.toNat < 256 ^ wordLength := h w List.mem_cons_self
    have ih := words_flatMap_littleEndian fun v hv => h v (List.mem_cons_of_mem _ hv)
    have hlength : (littleEndian wordLength w).length = wordLength := littleEndian_length _ _
    rw [List.length_cons, List.flatMap_cons, words, List.take_left' hlength,
      List.drop_left' hlength, ofLittleEndian_littleEndian wordLength hw, ih]

/-- A body of the right length is made of its words, and these use 24 bits. -/
theorem flatMap_littleEndian_words : ∀ {count : Nat} {body : Bytes},
    body.length = count * wordLength →
    (words count body).flatMap (littleEndian wordLength) = body ∧
      (words count body).length = count ∧ ∀ w ∈ words count body, w.toNat < 2 ^ 24
  | 0, body, h => by
    have : body = [] := List.eq_nil_of_length_eq_zero (by omega)
    subst this
    exact ⟨rfl, rfl, fun _ hw => by cases hw⟩
  | count + 1, body, h => by
    have hle : wordLength ≤ body.length := by
      rw [h, Nat.add_mul]
      omega
    have htake : (body.take wordLength).length = wordLength := List.length_take_of_le hle
    have hdrop : (body.drop wordLength).length = count * wordLength := by
      rw [List.length_drop, h, Nat.add_mul]
      omega
    obtain ⟨hbody, hlength, hwords⟩ := flatMap_littleEndian_words hdrop
    have hword := littleEndian_ofLittleEndian (body.take wordLength) (by rw [htake]; decide)
    have hlt := toNat_ofLittleEndian_lt (body.take wordLength) (by rw [htake]; decide)
    rw [htake] at hword hlt
    refine ⟨?_, ?_, ?_⟩
    · rw [words, List.flatMap_cons, hword, hbody, List.take_append_drop]
    · rw [words, List.length_cons, hlength]
    · intro w hw
      rw [words] at hw
      rcases List.mem_cons.mp hw with rfl | hw
      · exact hlt
      · exact hwords w hw

/-! ### Files -/

/-- The bytes of the parts of an image, one behind the other. -/
def layout (image : Image) : Bytes :=
  littleEndian 4 image.magic ++ littleEndian 4 image.version
    ++ littleEndian 4 image.code.length.toUInt32 ++ image.code.flatMap (littleEndian wordLength)

/-- The words are no more than a program may have, and use 24 bits each. -/
def Writable (code : List Word) : Prop :=
  code.length ≤ maxProgramLength ∧ ∀ w ∈ code, w.fits = true

theorem toBytes_of_writable {image : Image} (h : Writable image.code) :
    image.toBytes = .ok image.layout := by
  have hlength : ¬ image.code.length > maxProgramLength := Nat.not_lt.mpr h.1
  have hfind : image.code.findIdx? (!·.fits) = none := by
    rw [List.findIdx?_eq_none_iff]
    intro w hw
    simp [h.2 w hw]
  rw [toBytes, if_neg hlength, hfind]
  rfl

theorem toBytes_eq_ok_iff {image : Image} {bytes : Bytes} :
    image.toBytes = .ok bytes ↔ Writable image.code ∧ bytes = image.layout := by
  constructor
  · intro h
    have hwritable : Writable image.code := by
      unfold toBytes at h
      obtain ⟨hlength, h⟩ := guard_eq_ok_iff.mp h
      split at h
      · cases h
      · rename_i hfind
        rw [List.findIdx?_eq_none_iff] at hfind
        exact ⟨Nat.not_lt.mp hlength, fun w hw => by simpa using hfind w hw⟩
    rw [toBytes_of_writable hwritable, Except.ok.injEq] at h
    exact ⟨hwritable, h.symm⟩
  · rintro ⟨hwritable, rfl⟩
    exact toBytes_of_writable hwritable

theorem not_writable_iff (code : List Word) :
    ¬ Writable code ↔ 4096 < code.length ∨ ∃ w ∈ code, 2 ^ 24 ≤ w.toNat := by
  have hmax : maxProgramLength = 4096 := rfl
  simp only [Writable, hmax, Word.fits_iff, not_and_or, Nat.not_le, not_forall, Nat.not_lt,
    exists_prop]

theorem length_layout (image : Image) :
    image.layout.length = headerLength + image.code.length * wordLength := by
  have hbody : (image.code.flatMap (littleEndian wordLength)).length =
      image.code.length * wordLength := by
    rw [List.length_flatMap]
    simp [Nat.mul_comm]
  simp only [layout, List.length_append, littleEndian_length, hbody]
  rfl

theorem parts_of_append {a b c : Bytes} (body : Bytes) (ha : a.length = 4) (hb : b.length = 4)
    (hc : c.length = 4) :
    ((a ++ b ++ c ++ body).drop 0).take 4 = a ∧ ((a ++ b ++ c ++ body).drop 4).take 4 = b ∧
      ((a ++ b ++ c ++ body).drop 8).take 4 = c ∧
      (a ++ b ++ c ++ body).drop headerLength = body := by
  have hab : (a ++ b).length = 8 := by rw [List.length_append, ha, hb]
  have habc : (a ++ b ++ c).length = headerLength := by
    rw [List.length_append, hab, hc]
    rfl
  refine ⟨?_, ?_, ?_, ?_⟩
  · rw [List.drop_zero, List.append_assoc, List.append_assoc, List.take_left' ha]
  · rw [List.append_assoc, List.append_assoc, List.drop_left' ha, List.take_left' hb]
  · rw [List.append_assoc, List.drop_left' hab, List.take_left' hc]
  · exact List.drop_left' habc

/-- **What is written is read back.** -/
theorem ofBytes_layout {code : List Word} (h : Writable code) :
    ofBytes (layout { code }) = .ok { code } := by
  obtain ⟨hlength, hfits⟩ := h
  have hmax : maxProgramLength = 4096 := rfl
  have hcount : code.length.toUInt32.toNat = code.length := by
    rw [Nat.toUInt32_eq, UInt32.toNat_ofNat']
    omega
  have hbody : (code.flatMap (littleEndian wordLength)).length = code.length * wordLength := by
    rw [List.length_flatMap]
    simp [Nat.mul_comm]
  have hall := length_layout { code }
  obtain ⟨hmagic, hversion, hlen, hrest⟩ := parts_of_append (code.flatMap (littleEndian wordLength))
    (littleEndian_length 4 bytecodeMagic) (littleEndian_length 4 bytecodeVersion)
    (littleEndian_length 4 code.length.toUInt32)
  have hnumber (value : UInt32) : ofLittleEndian (littleEndian 4 value) = value :=
    ofLittleEndian_littleEndian 4 (UInt32.toNat_lt value)
  have hheader : ¬ (layout { code }).length < headerLength := by omega
  have hle : ¬ code.length > maxProgramLength := Nat.not_lt.mpr hlength
  rw [ofBytes, if_neg hheader]
  simp only [layout, hmagic, hversion, hlen, hrest, hnumber, hcount, hbody]
  rw [words_flatMap_littleEndian fun w hw => (Word.fits_iff w).mp (hfits w hw)]
  simp [hle]

theorem eq_parts {bytes : Bytes} (h : headerLength ≤ bytes.length) :
    bytes = littleEndian 4 (ofLittleEndian ((bytes.drop 0).take 4))
      ++ littleEndian 4 (ofLittleEndian ((bytes.drop 4).take 4))
      ++ littleEndian 4 (ofLittleEndian ((bytes.drop 8).take 4)) ++ bytes.drop headerLength := by
  have hheader : headerLength = 12 := rfl
  have hnumber (offset : Nat) (ho : offset + 4 ≤ bytes.length) :
      littleEndian 4 (ofLittleEndian ((bytes.drop offset).take 4)) =
        (bytes.drop offset).take 4 := by
    have hfour : ((bytes.drop offset).take 4).length = 4 := by
      rw [List.length_take, List.length_drop]
      omega
    have hread := littleEndian_ofLittleEndian ((bytes.drop offset).take 4) (by omega)
    rwa [hfour] at hread
  have htwelve : bytes.drop headerLength = (bytes.drop 8).drop 4 := by
    rw [List.drop_drop, hheader]
  have height : bytes.drop 8 = (bytes.drop 4).drop 4 := by rw [List.drop_drop]
  rw [hnumber 0 (by omega), hnumber 4 (by omega), hnumber 8 (by omega), htwelve, List.append_assoc,
    List.take_append_drop, height, List.append_assoc, List.take_append_drop, List.drop_zero,
    List.take_append_drop]

/-- **What is accepted is what is written.** -/
theorem layout_of_ofBytes {bytes : Bytes} {image : Image} (h : ofBytes bytes = .ok image) :
    ∃ code, image = { code } ∧ Writable code ∧ bytes = layout { code } := by
  simp only [ofBytes, guard_eq_ok_iff, not_not, Nat.not_lt] at h
  obtain ⟨hheader, hmagic, hversion, hcount, hshort, hlong, h⟩ := h
  cases h
  have hbody : (bytes.drop headerLength).length =
      (ofLittleEndian ((bytes.drop 8).take 4)).toNat * wordLength := by omega
  obtain ⟨hwords, hlength, hfits⟩ := flatMap_littleEndian_words hbody
  refine ⟨_, by rw [hmagic, hversion], ⟨?_, ?_⟩, ?_⟩
  · rw [hlength]
    exact hcount
  · exact fun w hw => (Word.fits_iff w).mpr (hfits w hw)
  · have hback : (ofLittleEndian ((bytes.drop 8).take 4)).toNat.toUInt32 =
        ofLittleEndian ((bytes.drop 8).take 4) := UInt32.ofNat_toNat
    rw [layout, hwords, hlength, hback]
    conv => lhs; rw [eq_parts hheader, hmagic, hversion]

/-- Files are accepted if and only if they are the bytes of an image of this version. -/
theorem ofBytes_eq_ok_iff {bytes : Bytes} {image : Image} :
    ofBytes bytes = .ok image ↔ ∃ code, image = { code } ∧ image.toBytes = .ok bytes := by
  constructor
  · intro h
    obtain ⟨code, rfl, hwritable, rfl⟩ := layout_of_ofBytes h
    exact ⟨code, rfl, toBytes_of_writable hwritable⟩
  · rintro ⟨code, rfl, h⟩
    obtain ⟨hwritable, rfl⟩ := toBytes_eq_ok_iff.mp h
    exact ofBytes_layout hwritable

/-! ### Files that are refused -/

/-- The count in its header says how long an accepted file is. -/
theorem length_of_ofBytes {bytes : Bytes} {image : Image} (h : ofBytes bytes = .ok image) :
    bytes.length =
      headerLength + (ofLittleEndian ((bytes.drop 8).take 4)).toNat * wordLength := by
  simp only [ofBytes, guard_eq_ok_iff, not_not, Nat.not_lt] at h
  obtain ⟨hheader, -, -, -, hshort, hlong, -⟩ := h
  rw [List.length_drop] at hshort hlong
  omega

/-- No accepted file is the beginning of another one. -/
theorem eq_of_prefix_of_ofBytes {a b : Bytes} (h : a <+: b) {first second : Image}
    (ha : ofBytes a = .ok first) (hb : ofBytes b = .ok second) : a = b := by
  obtain ⟨rest, rfl⟩ := h
  have hlength := length_of_ofBytes ha
  have hlength' := length_of_ofBytes hb
  have hheader : headerLength = 12 := rfl
  -- Both headers are the first twelve bytes of the shorter file, so they hold the same count.
  have hcount : ((a ++ rest).drop 8).take 4 = (a.drop 8).take 4 := by
    rw [List.drop_append_of_le_length (by omega), List.take_append_of_le_length]
    rw [List.length_drop]
    omega
  rw [hcount, ← hlength, List.length_append] at hlength'
  have hrest : rest = [] := List.eq_nil_of_length_eq_zero (by omega)
  rw [hrest, List.append_nil]

/-- Accepted files of one length have the same header. -/
theorem take_headerLength_eq_of_ofBytes {a b : Bytes} (h : a.length = b.length)
    {first second : Image} (ha : ofBytes a = .ok first) (hb : ofBytes b = .ok second) :
    a.take headerLength = b.take headerLength := by
  obtain ⟨code, rfl, -, rfl⟩ := layout_of_ofBytes ha
  obtain ⟨code', rfl, -, rfl⟩ := layout_of_ofBytes hb
  have hcode : code.length = code'.length := by
    rw [length_layout, length_layout] at h
    have hword : wordLength = 3 := rfl
    simp only [hword] at h
    omega
  have htake (words : List Word) : (layout { code := words }).take headerLength =
      littleEndian 4 bytecodeMagic ++ littleEndian 4 bytecodeVersion
        ++ littleEndian 4 words.length.toUInt32 := by
    refine List.take_left' ?_
    simp only [List.length_append, littleEndian_length]
    rfl
  rw [htake, htake, hcode]

section

variable {bytes : Bytes} {image : Image} (h : ofBytes bytes = .ok image)
include h

theorem ofBytes_take_of_lt {n : Nat} (hn : n < bytes.length) :
    ∃ error, ofBytes (bytes.take n) = .error error := by
  rw [exists_eq_error_iff]
  intro other hother
  have heq := eq_of_prefix_of_ofBytes (List.take_prefix n bytes) hother h
  have hlength := congrArg List.length heq
  rw [List.length_take] at hlength
  omega

theorem ofBytes_append_of_ne_nil {extra : Bytes} (hextra : extra ≠ []) :
    ∃ error, ofBytes (bytes ++ extra) = .error error := by
  rw [exists_eq_error_iff]
  intro other hother
  have heq := eq_of_prefix_of_ofBytes (List.prefix_append bytes extra) h hother
  exact hextra (List.self_eq_append_right.mp heq)

theorem ofBytes_of_header_ne {header : Bytes} (hlength : header.length = headerLength)
    (hne : header ≠ bytes.take headerLength) :
    ∃ error, ofBytes (header ++ bytes.drop headerLength) = .error error := by
  rw [exists_eq_error_iff]
  intro other hother
  have hbytes := length_of_ofBytes h
  have hsame : (header ++ bytes.drop headerLength).length = bytes.length := by
    rw [List.length_append, List.length_drop, hlength]
    omega
  have heq := take_headerLength_eq_of_ofBytes hsame hother h
  rw [List.take_left' hlength] at heq
  exact hne heq

end

/-! ### Writing to a place -/

/-- The image is put out as these bytes, to every place that takes them. -/
def Writes (image : Image) (bytes : Bytes) : Prop :=
  ∀ sink : Sink, sink.failed = false →
    image.write sink = (.ok (), { sink with bytes := sink.bytes ++ bytes })

theorem writes_of_toBytes {image : Image} {bytes : Bytes} (h : image.toBytes = .ok bytes) :
    image.Writes bytes := by
  intro sink hsink
  simp [write, h, Sink.put, hsink]

theorem writes_iff {image : Image} {bytes : Bytes} :
    image.Writes bytes ↔ image.toBytes = .ok bytes := by
  refine ⟨fun h => ?_, writes_of_toBytes⟩
  have hempty := h {} rfl
  cases hbytes : image.toBytes with
  | error error => simp [write, hbytes] at hempty
  | ok written =>
    rw [writes_of_toBytes hbytes {} rfl] at hempty
    simpa using hempty

theorem write_of_error {image : Image} {sink : Sink} (hsink : sink.failed = false)
    {error : ImageWriteError} (h : (image.write sink).1 = .error error) :
    (image.write sink).2 = sink := by
  cases hbytes : image.toBytes with
  | error cause => simp only [write, hbytes]
  | ok bytes =>
    rw [writes_of_toBytes hbytes sink hsink] at h
    cases h

theorem exists_write_error_iff (image : Image) {sink : Sink} (hsink : sink.failed = false) :
    (∃ error, (image.write sink).1 = .error error) ↔
      4096 < image.code.length ∨ ∃ w ∈ image.code, 2 ^ 24 ≤ w.toNat := by
  rw [← not_writable_iff, exists_eq_error_iff]
  constructor
  · intro h hwritable
    refine h () ?_
    rw [writes_of_toBytes (toBytes_of_writable hwritable) sink hsink]
  · intro h result hresult
    cases hbytes : image.toBytes with
    | error error => simp [write, hbytes] at hresult
    | ok bytes => exact h (toBytes_eq_ok_iff.mp hbytes).1

/-- **Reading and writing are inverse.** Writing fails for too many words and for too wide ones
only, and then puts nothing out. What is written for an image of this version is read back as that
image. What is read is written back as it was, so the accepted files are the written ones, and an
accepted file that is cut short, made longer or given another header is refused. -/
theorem inverse_write_ofBytes :
    (∀ (image : Image) (sink : Sink), sink.failed = false →
      ((∃ error, (image.write sink).1 = .error error) ↔
        4096 < image.code.length ∨ ∃ w ∈ image.code, 2 ^ 24 ≤ w.toNat) ∧
      ∀ error, (image.write sink).1 = .error error → (image.write sink).2 = sink) ∧
    (∀ code : List Word, code.length ≤ 4096 → (∀ w ∈ code, w.toNat < 2 ^ 24) →
      ∃ bytes, Writes { code } bytes ∧ ofBytes bytes = .ok { code }) ∧
    (∀ bytes image, ofBytes bytes = .ok image → image.Writes bytes) ∧
    (∀ bytes, (∃ image, ofBytes bytes = .ok image) ↔ ∃ code, Writes { code } bytes) ∧
    ∀ bytes image, ofBytes bytes = .ok image →
      (∀ n < bytes.length, ∃ error, ofBytes (bytes.take n) = .error error) ∧
      (∀ extra ≠ [], ∃ error, ofBytes (bytes ++ extra) = .error error) ∧
      ∀ header, header.length = headerLength → header ≠ bytes.take headerLength →
        ∃ error, ofBytes (header ++ bytes.drop headerLength) = .error error := by
  refine ⟨fun image sink hsink => ⟨exists_write_error_iff image hsink, fun error h => ?_⟩,
    fun code hlength hwords => ?_, fun bytes image h => ?_, fun bytes => ⟨?_, ?_⟩,
    fun bytes image h => ⟨fun n hn => ofBytes_take_of_lt h hn,
      fun extra hextra => ofBytes_append_of_ne_nil h hextra,
      fun header hlength hne => ofBytes_of_header_ne h hlength hne⟩⟩
  · exact write_of_error hsink h
  · have hwritable : Writable code :=
      ⟨hlength, fun w hw => (Word.fits_iff w).mpr (hwords w hw)⟩
    exact ⟨_, writes_of_toBytes (toBytes_of_writable hwritable), ofBytes_layout hwritable⟩
  · obtain ⟨code, -, hbytes⟩ := ofBytes_eq_ok_iff.mp h
    exact writes_of_toBytes hbytes
  · rintro ⟨image, h⟩
    obtain ⟨code, rfl, hbytes⟩ := ofBytes_eq_ok_iff.mp h
    exact ⟨code, writes_of_toBytes hbytes⟩
  · rintro ⟨code, h⟩
    exact ⟨_, ofBytes_eq_ok_iff.mpr ⟨code, rfl, writes_iff.mp h⟩⟩

/-- A file of two words, one of them the widest, with its last byte cut off, with a byte behind it
and with a count of one word less; and a word that is too wide by one bit. -/
theorem inverse_write_ofBytes_of_widest :
    let code : List Word := [0x000001, 0xFFFFFF]
    let magic : Bytes := [0x52, 0x56, 0x4D, 0x01]
    let bytes := magic ++ [1, 0, 0, 0, 2, 0, 0, 0, 0x01, 0x00, 0x00, 0xFF, 0xFF, 0xFF]
    ofBytes bytes = .ok { code } ∧ Writes { code } bytes ∧
      (∃ error, ofBytes (bytes.take 17) = .error error) ∧
      (∃ error, ofBytes (bytes ++ [0]) = .error error) ∧
      (∃ error, ofBytes (magic ++ [1, 0, 0, 0, 1, 0, 0, 0] ++ bytes.drop headerLength) =
        .error error) ∧
      (write { code := [0x1000000] } {}).1 = .error (.wideWord 0) ∧
      (write { code := [0x1000000] } {}).2 = {} := by
  intro code magic bytes
  obtain ⟨hfails, hwritten, hread, -, hrefused⟩ := inverse_write_ofBytes
  have himage : ofBytes bytes = .ok { code } := by decide
  obtain ⟨htake, happend, hheader⟩ := hrefused bytes _ himage
  exact ⟨himage, hread bytes _ himage, htake 17 (by decide), happend [0] (by decide),
    hheader _ (by decide) (by decide), by decide, (hfails _ {} rfl).2 (.wideWord 0) (by decide)⟩

end Image
end RegisterMachine
