import AchievementLogic.Memory.ReadSize
import AchievementLogic.Proofs.Number.Places

/-!
# What sizes make of the same bytes

Every size reads its bytes one by one, wherever each of them lies, and makes a number of them in its
own way.  The numbers fit together: bits and halves make up the byte, bytes make up the words, and
what a size makes of some bytes and what it makes of their complements are its largest value
together.
-/

namespace AchievementLogic

/-! ## Bytes -/

theorem toNat_add_complement (byte : UInt8) : byte.toNat + (255 - byte).toNat = 255 := by
  have hlt := byte.toNat_lt
  have hle : byte ≤ 255 := by
    rw [UInt8.le_iff_toNat_le]
    exact Nat.le_of_lt_succ hlt
  rw [UInt8.toNat_sub_of_le 255 byte hle]
  exact Nat.add_sub_of_le (Nat.le_of_lt_succ hlt)

theorem Frame.length_readBytes (frame : Frame) (address : UInt32) (count : ℕ) :
    (frame.readBytes address count).length = count := by
  rw [readBytes, List.length_map, List.length_range]

/-! ## Numbers of some bytes -/

theorem littleEndian_cons (byte : UInt8) (bytes : List UInt8) :
    littleEndian (byte :: bytes) = byte.toNat + 256 * littleEndian bytes := rfl

theorem littleEndian_append (first later : List UInt8) :
    littleEndian (first ++ later) =
      littleEndian first + 256 ^ first.length * littleEndian later := by
  induction first with
  | nil => simp [littleEndian]
  | cons byte first ih =>
      rw [List.cons_append, littleEndian_cons, ih, littleEndian_cons, List.length_cons]
      ring

/-- Bytes and their complements leave no gap and no carry at any place. -/
theorem littleEndian_add_complement (bytes : List UInt8) :
    littleEndian bytes + littleEndian (bytes.map fun byte => 255 - byte) + 1 =
      256 ^ bytes.length := by
  induction bytes with
  | nil => rfl
  | cons byte bytes ih =>
      have hbyte := toNat_add_complement byte
      rw [List.map_cons, littleEndian_cons, littleEndian_cons, List.length_cons, Nat.pow_succ, ← ih]
      omega

theorem littleEndian_map_range (count : ℕ) (byteAt : ℕ → UInt8) :
    littleEndian ((List.range count).map byteAt) =
      ∑ offset ∈ Finset.range count, 256 ^ offset * (byteAt offset).toNat := by
  induction count with
  | zero => rfl
  | succ count ih =>
      rw [List.range_succ, List.map_append, littleEndian_append, ih, Finset.sum_range_succ,
        List.length_map, List.length_range]
      rfl

/-- With the highest address first, the byte at the lowest one counts most. -/
theorem littleEndian_reverse_map_range (count : ℕ) (byteAt : ℕ → UInt8) :
    littleEndian ((List.range count).map byteAt).reverse =
      ∑ offset ∈ Finset.range count, 256 ^ (count - 1 - offset) * (byteAt offset).toNat := by
  induction count generalizing byteAt with
  | zero => rfl
  | succ count ih =>
      have hlater := ih fun offset => byteAt (offset + 1)
      rw [List.range_succ_eq_map, List.map_cons, List.map_map, List.reverse_cons,
        littleEndian_append, List.length_reverse, List.length_map, List.length_range,
        Finset.sum_range_succ']
      congr 1
      refine hlater.trans (Finset.sum_congr rfl fun offset _ => ?_)
      rw [Nat.add_sub_cancel, Nat.sub_sub, Nat.add_comm 1]

/-- Bytes with the one first that counts least. -/
def ByteOrder.arrange : ByteOrder → List UInt8 → List UInt8
  | little, bytes => bytes
  | big, bytes => bytes.reverse

/-- A number and the one made of the complements of its bytes add up to all ones, in any order. -/
theorem ByteOrder.littleEndian_arrange_add_complement (order : ByteOrder) (bytes : List UInt8) :
    littleEndian (order.arrange bytes) +
        littleEndian (order.arrange (bytes.map fun byte => 255 - byte)) + 1 =
      256 ^ bytes.length := by
  cases order with
  | little => exact littleEndian_add_complement bytes
  | big =>
      have hreverse := littleEndian_add_complement bytes.reverse
      rwa [List.map_reverse, List.length_reverse] at hreverse

namespace ReadSize

/-! ## Bits of a byte -/

theorem bitOf_eq_digitAt (byte : UInt8) (index : ℕ) :
    bitOf byte index = digitAt 2 byte.toNat index := rfl

theorem sum_bitOf (byte : UInt8) :
    ∑ index ∈ Finset.range 8, 2 ^ index * bitOf byte index = byte.toNat := by
  calc ∑ index ∈ Finset.range 8, 2 ^ index * bitOf byte index
      = byte.toNat % 2 ^ 8 := sum_digitAt 2 8 byte.toNat
    _ = byte.toNat := Nat.mod_eq_of_lt byte.toNat_lt

theorem countP_bitOf (byte : UInt8) (count : ℕ) :
    (List.range count).countP (fun index => bitOf byte index == 1) =
      ∑ index ∈ Finset.range count, bitOf byte index := by
  induction count with
  | zero => rfl
  | succ count ih =>
      have hbit : bitOf byte count = 0 ∨ bitOf byte count = 1 := Nat.mod_two_eq_zero_or_one _
      rw [List.range_succ, List.countP_append, ih, Finset.sum_range_succ, List.countP_singleton]
      rcases hbit with hbit | hbit
      · rw [hbit]
        rfl
      · rw [hbit]
        rfl

/-- Of a bit and the bit of the complement one is set. -/
theorem bitOf_add_complement (byte : UInt8) {index : ℕ} (hindex : index < 8) :
    bitOf byte index + bitOf (255 - byte) index = 1 := by
  have hcomplement : (255 - byte).toNat = 2 ^ 8 - (byte.toNat + 1) := by
    have hbyte := toNat_add_complement byte
    omega
  have hturned := Nat.testBit_two_pow_sub_succ byte.toNat_lt index
  rw [bitOf_eq_digitAt, bitOf_eq_digitAt, digitAt, digitAt, hcomplement, ← Nat.toNat_testBit,
    ← Nat.toNat_testBit, hturned]
  cases byte.toNat.testBit index <;> simp [hindex]

/-! ## The number a size makes of its bytes -/

/-- The number in the bytes that a read takes, before it is held in a word. -/
def amount (size : ReadSize) (bytes : List UInt8) : ℕ :=
  let first := bytes.headD 0
  match size with
  | bit index => bitOf first index
  | lowNibble => first.toNat % 16
  | highNibble => first.toNat / 16
  | bitCount => ∑ index ∈ Finset.range 8, bitOf first index
  | byte => first.toNat
  | word _ order | float _ order => littleEndian (order.arrange bytes)

theorem assemble_eq (size : ReadSize) (bytes : List UInt8) :
    size.assemble bytes = UInt32.ofNat (size.amount bytes) := by
  cases size with
  | bit _ => rfl
  | lowNibble => rfl
  | highNibble => rfl
  | bitCount => exact congrArg UInt32.ofNat (countP_bitOf (bytes.headD 0) 8)
  | byte => exact (UInt32.ofNat_uInt8ToNat (bytes.headD 0)).symm
  | word _ order => cases order <;> rfl
  | float _ order => cases order <;> rfl

theorem toNat_maxValue_word (width : WordWidth) (order : ByteOrder) :
    (word width order).maxValue.toNat + 1 = 256 ^ width.bytes := by
  cases width <;> cases order <;> decide

theorem toNat_maxValue_float (encoding : FloatEncoding) (order : ByteOrder) :
    (float encoding order).maxValue.toNat + 1 = 256 ^ 4 := by
  change (0xFFFFFFFF : UInt32).toNat + 1 = 256 ^ 4
  decide

/-- What is made of bytes and of their complements is the largest value together. -/
theorem amount_add_complement {size : ReadSize} {bytes : List UInt8}
    (hlength : bytes.length = size.byteCount) :
    size.amount bytes + size.amount (bytes.map fun byte => 255 - byte) = size.maxValue.toNat := by
  cases size with
  | bit index =>
      obtain ⟨byte, rfl⟩ := List.length_eq_one_iff.mp hlength
      exact bitOf_add_complement byte index.isLt
  | lowNibble =>
      obtain ⟨byte, rfl⟩ := List.length_eq_one_iff.mp hlength
      change byte.toNat % 16 + (255 - byte).toNat % 16 = 15
      have hbyte := toNat_add_complement byte
      omega
  | highNibble =>
      obtain ⟨byte, rfl⟩ := List.length_eq_one_iff.mp hlength
      change byte.toNat / 16 + (255 - byte).toNat / 16 = 15
      have hbyte := toNat_add_complement byte
      omega
  | bitCount =>
      obtain ⟨byte, rfl⟩ := List.length_eq_one_iff.mp hlength
      change ∑ index ∈ Finset.range 8, bitOf byte index +
        ∑ index ∈ Finset.range 8, bitOf (255 - byte) index = 8
      have hbits : ∀ index ∈ Finset.range 8, bitOf byte index + bitOf (255 - byte) index = 1 :=
        fun index hindex => bitOf_add_complement byte (Finset.mem_range.mp hindex)
      rw [← Finset.sum_add_distrib, Finset.sum_congr rfl hbits]
      rfl
  | byte =>
      obtain ⟨byte, rfl⟩ := List.length_eq_one_iff.mp hlength
      exact toNat_add_complement byte
  | word width order =>
      have hmax := toNat_maxValue_word width order
      have hsum := order.littleEndian_arrange_add_complement bytes
      rw [hlength] at hsum
      exact Nat.succ.inj (hsum.trans hmax.symm)
  | float encoding order =>
      have hmax := toNat_maxValue_float encoding order
      have hsum := order.littleEndian_arrange_add_complement bytes
      rw [hlength] at hsum
      exact Nat.succ.inj (hsum.trans hmax.symm)

theorem amount_le_maxValue {size : ReadSize} {bytes : List UInt8}
    (hlength : bytes.length = size.byteCount) : size.amount bytes ≤ size.maxValue.toNat := by
  rw [← amount_add_complement hlength]
  exact Nat.le_add_right _ _

/-- A word holds whatever a size makes of its bytes. -/
theorem toNat_assemble {size : ReadSize} {bytes : List UInt8}
    (hlength : bytes.length = size.byteCount) :
    (size.assemble bytes).toNat = size.amount bytes := by
  have hlt := Nat.lt_of_le_of_lt (amount_le_maxValue hlength) size.maxValue.toNat_lt
  rw [assemble_eq, UInt32.toNat_ofNat_of_lt' hlt]

theorem assemble_le_maxValue {size : ReadSize} {bytes : List UInt8}
    (hlength : bytes.length = size.byteCount) : size.assemble bytes ≤ size.maxValue := by
  rw [UInt32.le_iff_toNat_le, toNat_assemble hlength]
  exact amount_le_maxValue hlength

/-- What is left of the number in some bytes is the number in their complements. -/
theorem maxValue_sub_assemble {size : ReadSize} {bytes : List UInt8}
    (hlength : bytes.length = size.byteCount) :
    size.maxValue - size.assemble bytes = size.assemble (bytes.map fun byte => 255 - byte) := by
  have hcomplement : (bytes.map fun byte => 255 - byte).length = size.byteCount := by
    rw [List.length_map, hlength]
  rw [← UInt32.toNat_inj, UInt32.toNat_sub_of_le _ _ (assemble_le_maxValue hlength),
    toNat_assemble hlength, toNat_assemble hcomplement, ← amount_add_complement hlength]
  exact Nat.add_sub_cancel_left _ _

/-! ## Reading at one address -/

theorem toNat_read (size : ReadSize) (frame : Frame) (address : UInt32) :
    (size.read frame address).toNat = size.amount (frame.readBytes address size.byteCount) :=
  toNat_assemble (frame.length_readBytes address size.byteCount)

theorem read_le_maxValue (size : ReadSize) (frame : Frame) (address : UInt32) :
    size.read frame address ≤ size.maxValue :=
  assemble_le_maxValue (frame.length_readBytes address size.byteCount)

/-- A read of one byte is what the size makes of the byte at the address. -/
theorem toNat_read_of_byteCount_eq_one {size : ReadSize} (hcount : size.byteCount = 1)
    (frame : Frame) (address : UInt32) :
    (size.read frame address).toNat = size.amount [frame.readByte address] := by
  have hbytes : frame.readBytes address 1 = [frame.readByte (address + 0)] := rfl
  rw [toNat_read, hcount, hbytes, UInt32.add_zero]

theorem toNat_read_byte (frame : Frame) (address : UInt32) :
    (byte.read frame address).toNat = (frame.readByte address).toNat :=
  toNat_read_of_byteCount_eq_one rfl frame address

theorem toNat_read_word_little (width : WordWidth) (frame : Frame) (address : UInt32) :
    ((word width .little).read frame address).toNat =
      ∑ offset ∈ Finset.range width.bytes,
        256 ^ offset * (byte.read frame (address + UInt32.ofNat offset)).toNat := by
  simp only [toNat_read_byte]
  exact (toNat_read _ frame address).trans (littleEndian_map_range width.bytes _)

theorem toNat_read_word_big (width : WordWidth) (frame : Frame) (address : UInt32) :
    ((word width .big).read frame address).toNat =
      ∑ offset ∈ Finset.range width.bytes,
        256 ^ (width.bytes - 1 - offset) *
          (byte.read frame (address + UInt32.ofNat offset)).toNat := by
  simp only [toNat_read_byte]
  exact (toNat_read _ frame address).trans (littleEndian_reverse_map_range width.bytes _)

/-- A float is read as the word of four bytes in its order. -/
theorem read_float (encoding : FloatEncoding) (order : ByteOrder) (frame : Frame)
    (address : UInt32) :
    (float encoding order).read frame address = (word .four order).read frame address := by
  cases order <;> rfl

/-- The byte order of the floats that a letter names. -/
def floatOrder? (letter : Char) : Option ByteOrder :=
  match letter.toUpper with
  | 'F' | 'H' | 'L' => some .little
  | 'B' | 'I' | 'M' => some .big
  | _ => none

theorem map_read_ofFloatLetter? (letter : Char) (frame : Frame) (address : UInt32) :
    (ofFloatLetter? letter).map (·.read frame address) =
      (floatOrder? letter).map fun order => (word .four order).read frame address := by
  unfold ofFloatLetter? floatOrder?
  generalize letter.toUpper = upper
  split
  case h_7 => simp_all
  all_goals rfl

/-- All sizes see the same bytes, and none of them reads more than its largest value. -/
theorem reads_agree (frame : Frame) (address : UInt32) :
    let raw (size : ReadSize) := (size.read frame address).toNat
    let byteAt (offset : ℕ) := (byte.read frame (address + UInt32.ofNat offset)).toNat
    (∑ index : Fin 8, 2 ^ index.val * raw (bit index) = byteAt 0 ∧
      raw lowNibble + 16 * raw highNibble = byteAt 0) ∧
    raw bitCount = ∑ index : Fin 8, raw (bit index) ∧
    (∀ width : WordWidth,
      raw (word width .little) =
        ∑ offset ∈ Finset.range width.bytes, 256 ^ offset * byteAt offset ∧
      raw (word width .big) =
        ∑ offset ∈ Finset.range width.bytes, 256 ^ (width.bytes - 1 - offset) * byteAt offset) ∧
    (∀ encoding order, raw (float encoding order) = raw (word .four order)) ∧
    (∀ letter, (ofFloatLetter? letter).map raw =
      (floatOrder? letter).map fun order => raw (word .four order)) ∧
    ∀ size : ReadSize, size.read frame address ≤ size.maxValue := by
  intro raw byteAt
  have hbyte : byteAt 0 = (frame.readByte address).toNat := by
    rw [← toNat_read_byte]
    exact congrArg (fun address => (byte.read frame address).toNat) (UInt32.add_zero address)
  have hbit (index : Fin 8) : raw (bit index) = bitOf (frame.readByte address) index :=
    toNat_read_of_byteCount_eq_one rfl frame address
  have hlow : raw lowNibble = (frame.readByte address).toNat % 16 :=
    toNat_read_of_byteCount_eq_one rfl frame address
  have hhigh : raw highNibble = (frame.readByte address).toNat / 16 :=
    toNat_read_of_byteCount_eq_one rfl frame address
  have hcount : raw bitCount = ∑ index ∈ Finset.range 8, bitOf (frame.readByte address) index :=
    toNat_read_of_byteCount_eq_one rfl frame address
  refine ⟨⟨?_, ?_⟩, ?_, fun width => ⟨?_, ?_⟩, fun encoding order => ?_, fun letter => ?_,
    fun size => read_le_maxValue size frame address⟩
  · simp only [hbit, hbyte]
    rw [Fin.sum_univ_eq_sum_range fun index => 2 ^ index * bitOf (frame.readByte address) index]
    exact sum_bitOf _
  · rw [hlow, hhigh, hbyte]
    exact Nat.mod_add_div _ 16
  · simp only [hbit, hcount]
    exact (Fin.sum_univ_eq_sum_range (bitOf (frame.readByte address)) 8).symm
  · exact toNat_read_word_little width frame address
  · exact toNat_read_word_big width frame address
  · exact congrArg UInt32.toNat (read_float encoding order frame address)
  · have hletter := congrArg (Option.map UInt32.toNat) (map_read_ofFloatLetter? letter frame address)
    rwa [Option.map_map, Option.map_map] at hletter

end ReadSize

end AchievementLogic
