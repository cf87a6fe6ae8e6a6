import AchievementLogic.Proofs.Trigger.Grammar

/-!
# Reading operands as they are spelled

The readers of operands cut greedily.  A spelling is therefore read in full in front of bytes that
begin neither with a further digit nor with the letter of a `0x`.
-/

namespace AchievementLogic

open Text Reader

/-! ## Single bytes -/

/-- A digit is neither a size nor part of the mark before it. -/
theorem ofLetter?_eq_none_of_digit : ∀ byte : UInt8, (digitValue? 16 (Char.ofUInt8 byte)).isSome →
    ReadSize.ofLetter? (Char.ofUInt8 byte) = none ∧
      Char.ofUInt8 byte ≠ 'x' ∧ Char.ofUInt8 byte ≠ 'X' :=
  forall_byte (by decide +kernel)

theorem mem_digits_of_decimal : ∀ byte : UInt8, (digitValue? 10 (Char.ofUInt8 byte)).isSome →
    Char.ofUInt8 byte ∈ ['0', '1', '2', '3', '4', '5', '6', '7', '8', '9'] :=
  forall_byte (by decide +kernel)

/-! ## Words and addresses -/

/-- Neither a hexadecimal digit nor the letter of a `0x` comes next. -/
def EndsOperand (rest : List UInt8) : Prop :=
  ∀ byte ∈ rest.head?, digitValue? 16 (Char.ofUInt8 byte) = none ∧
    Char.ofUInt8 byte ≠ 'x' ∧ Char.ofUInt8 byte ≠ 'X'

theorem EndsOperand.endsHex {rest : List UInt8} (hrest : EndsOperand rest) : EndsDigits 16 rest :=
  fun byte hmem => (hrest byte hmem).1

theorem EndsOperand.endsDecimal {rest : List UInt8} (hrest : EndsOperand rest) :
    EndsDigits 10 rest := by
  intro byte hmem
  by_contra hdigit
  have hhex := isSome_digitValue?_of_decimal byte (Option.isSome_iff_ne_none.mpr hdigit)
  rw [(hrest byte hmem).1] at hhex
  cases hhex

theorem SpellsWord.readDigits {base : Nat} (hbase : 0 < base) {bytes rest : List UInt8}
    {word : UInt32} (hword : SpellsWord base bytes word) (hrest : EndsDigits base rest)
    (position : Nat) :
    Scan.readDigits ⟨bytes ++ rest, position⟩ base =
      some (word, ⟨rest, position + bytes.length⟩) := by
  cases hword with
  | digits hdigits hsome => exact Scan.readDigits_append hbase hdigits hsome hrest position

theorem IsHexMark.accept {mark : List UInt8} (hmark : IsHexMark mark) (rest : List UInt8)
    (position : Nat) :
    Scan.acceptHexMark? ⟨mark ++ rest, position⟩ = some ⟨rest, position + mark.length⟩ := by
  rcases hmark with rfl | rfl <;> rfl

theorem IsHexMark.reads {mark : List UInt8} (hmark : IsHexMark mark) (rest : List UInt8) :
    Reads (Reader.accepts Scan.acceptHexMark?) mark true rest :=
  fun position => run_accepts_some (hmark.accept rest position)

theorem IsHexMark.hasHexMarkAt {mark : List UInt8} (hmark : IsHexMark mark) (rest : List UInt8)
    (position : Nat) : Scan.hasHexMarkAt ⟨mark ++ rest, position⟩ 0 = true := by
  rcases hmark with rfl | rfl <;> rfl

/-- Digits do not begin like a `0x`. -/
theorem hasHexMarkAt_digits {bytes rest : List UInt8}
    (hdigits : ∀ byte ∈ bytes, (digitValue? 16 (Char.ofUInt8 byte)).isSome) (hsome : bytes ≠ [])
    (hrest : EndsOperand rest) (position : Nat) :
    Scan.hasHexMarkAt ⟨bytes ++ rest, position⟩ 0 = false := by
  have hsecond : ∀ byte ∈ (bytes ++ rest)[1]?,
      Char.ofUInt8 byte ≠ 'x' ∧ Char.ofUInt8 byte ≠ 'X' := by
    intro byte hmem
    match bytes, hsome with
    | [first], _ =>
        have hhead : byte ∈ rest.head? := by simpa [List.head?_eq_getElem?] using hmem
        exact (hrest byte hhead).2
    | first :: second :: others, _ =>
        obtain rfl : second = byte := by simpa using hmem
        exact (ofLetter?_eq_none_of_digit second (hdigits second (by simp))).2
  cases hbyte : (bytes ++ rest)[1]? with
  | none => simp [Scan.hasHexMarkAt, Scan.peekAt, hbyte]
  | some byte =>
      obtain ⟨hlower, hupper⟩ := hsecond byte hbyte
      simp [Scan.hasHexMarkAt, Scan.peekAt, hbyte, hlower, hupper]

/-- Reading a hexadecimal number that may have a `0x` of its own. -/
theorem reads_hexNumber {bytes rest : List UInt8} {address : UInt32}
    (haddress : SpellsAddress bytes address) (hrest : EndsOperand rest) (cause : ParseError.Cause)
    (start : Nat) :
    Reads (do let _ ← Reader.accepts Scan.acceptHexMark?; Reader.require Scan.readHex cause start)
      bytes address rest := by
  have hdigits {digits : List UInt8} (hword : SpellsWord 16 digits address) :
      Reads (Reader.require Scan.readHex cause start) digits address rest := fun position =>
    run_require (hword.readDigits (by decide) hrest.endsHex position) _ _
  cases haddress with
  | plain hword =>
      have hmark : Reads (Reader.accepts Scan.acceptHexMark?) [] false (bytes ++ rest) := by
        obtain ⟨first, others, hbytes, hall⟩ := hword.exists_cons
        intro position
        apply run_accepts_none
        have hnone := hasHexMarkAt_digits hall (by simp [hbytes]) hrest position
        simp [Scan.acceptHexMark?, hnone]
      exact hmark.bind_nil (hdigits hword)
  | @marked mark bytes _ hmark hword => exact (hmark.reads (bytes ++ rest)).bind (hdigits hword)

/-! ## Places in memory -/

/-- Reading the address and taking the operand together. -/
theorem reads_memory {bytes rest : List UInt8} {address : UInt32}
    (haddress : SpellsAddress bytes address) (hrest : EndsOperand rest) (access : Access)
    (size : ReadSize) (start : Nat) :
    Reads (do return .memory { access, size, address := ← Operand.readAddress start })
      bytes (Operand.memory { access, size, address }) rest :=
  (reads_hexNumber haddress hrest .noAddress start).map fun address =>
    Operand.memory { access, size, address }

theorem reads_readFloatMemory {letter : UInt8} {bytes rest : List UInt8} {size : ReadSize}
    {address : UInt32} (hsize : ReadSize.ofFloatLetter? (Char.ofUInt8 letter) = some size)
    (haddress : SpellsAddress bytes address) (hrest : EndsOperand rest) (access : Access)
    (start : Nat) :
    Reads (Operand.readFloatMemory access start) (letter :: bytes)
      (.memory { access, size, address }) rest := by
  refine Reads.peek_bind ?_
  simp only [List.cons_append, List.head?_cons, Option.map_some, Option.bind_some, hsize]
  exact (reads_memory haddress hrest access size start).skip_one letter

theorem IsHexMark.peek {mark : List UInt8} (hmark : IsHexMark mark) (rest : List UInt8) :
    (mark ++ rest).head?.map Char.ofUInt8 = some '0' := by
  rcases hmark with rfl | rfl <;> rfl

theorem isFloatLetter_some {letter : Char} (hletter : letter = 'f' ∨ letter = 'F') :
    Operand.isFloatLetter (some letter) = true := by
  rcases hletter with rfl | rfl <;> rfl

theorem reads_readMemory {bytes rest : List UInt8} {size : ReadSize} {address : UInt32}
    (hplace : SpellsPlace bytes size address) (hrest : EndsOperand rest) (access : Access) :
    Reads (Operand.readMemory access) bytes (.memory { access, size, address }) rest := by
  refine Reads.position_bind fun start => Reads.peek_bind ?_
  cases hplace with
  | @float opening letter _ _ _ hopening hsize haddress =>
      simp only [List.cons_append, List.head?_cons, Option.map_some, isFloatLetter_some hopening,
        if_true]
      exact (reads_readFloatMemory hsize haddress hrest access start).skip_one opening
  | @sized mark bytes letter _ _ hmark hsize haddress =>
      have hother : Operand.isFloatLetter (some '0') = false := rfl
      rw [List.append_assoc, hmark.peek, hother]
      refine (hmark.reads _).bind (Reads.peek_bind ?_)
      simp only [List.cons_append, List.head?_cons, Option.map_some, Option.bind_some, hsize]
      exact (reads_memory haddress hrest access size start).skip_one letter
  | @unsized mark bytes _ hmark haddress =>
      have hother : Operand.isFloatLetter (some '0') = false := rfl
      obtain ⟨first, others, hbytes, hdigit⟩ := haddress.exists_cons
      have hnone : ((bytes ++ rest).head?.map Char.ofUInt8).bind ReadSize.ofLetter? = none := by
        rw [hbytes]
        exact (ofLetter?_eq_none_of_digit first hdigit).1
      rw [List.append_assoc, hmark.peek, hother]
      refine (hmark.reads _).bind (Reads.peek_bind ?_)
      rw [hnone]
      exact reads_memory haddress hrest access _ start

/-! ## Operands -/

theorem reads_hexWord {bytes rest : List UInt8} {word : UInt32}
    (haddress : SpellsAddress bytes word) (hrest : EndsOperand rest) (start : Nat) :
    Reads (do
      let _ ← Reader.accepts Scan.acceptHexMark?
      return Operand.word (← Reader.require Scan.readHex .noHexNumber start))
      bytes (.word word) rest := by
  have hread := (reads_hexNumber haddress hrest .noHexNumber start).map Operand.word
  rwa [bind_assoc] at hread

/-- A place begins with a `0x` or with the letter of a float. -/
theorem SpellsPlace.begins {bytes : List UInt8} {size : ReadSize} {address : UInt32}
    (hplace : SpellsPlace bytes size address) (rest : List UInt8) (position : Nat) :
    (Scan.hasHexMarkAt ⟨bytes ++ rest, position⟩ 0 ||
      Operand.isFloatLetter (Scan.peek ⟨bytes ++ rest, position⟩)) = true := by
  cases hplace with
  | @float opening letter _ _ _ hopening hsize haddress =>
      simp [isFloatLetter_some hopening]
  | sized hmark hsize haddress =>
      rw [List.append_assoc, hmark.hasHexMarkAt]
      rfl
  | unsized hmark haddress =>
      rw [List.append_assoc, hmark.hasHexMarkAt]
      rfl

theorem reads_accessed {letter : UInt8} {bytes rest : List UInt8} {access : Access}
    {size : ReadSize} {address : UInt32}
    (haccess : Access.ofLetter? (Char.ofUInt8 letter) = some access)
    (hplace : SpellsPlace bytes size address) (hrest : EndsOperand rest) :
    Reads Operand.read (letter :: bytes) (.memory { access, size, address }) rest := by
  refine Reads.get_bind fun position => ?_
  have hread := (reads_readMemory hplace hrest access).skip_one letter
  have hbegins : (Scan.hasHexMarkAt ⟨letter :: (bytes ++ rest), position⟩ 1 ||
      Operand.isFloatLetter (Scan.peekAt ⟨letter :: (bytes ++ rest), position⟩ 1)) = true :=
    hplace.begins rest position
  rw [List.cons_append, Scan.peek_cons]
  simp only [hbegins, if_true]
  unfold Access.ofLetter? at haccess
  split at haccess <;> cases haccess
  all_goals
    rw [‹Char.ofUInt8 letter = _›]
    exact hread

/-- Without the letter of an access a place is read as one that shows its current value, behind `0x`
or behind the letter of a float. -/
theorem reads_address {bytes rest : List UInt8} {size : ReadSize} {address : UInt32}
    (hplace : SpellsPlace bytes size address) (hrest : EndsOperand rest) :
    Reads Operand.read bytes (.memory { access := .address, size, address }) rest := by
  refine Reads.get_bind fun position => ?_
  have hmemory := reads_readMemory hplace hrest .address
  cases hplace with
  | @float opening letter bytes _ _ hopening hsize haddress =>
      have hsome : ((Scan.peekAt ⟨opening :: letter :: (bytes ++ rest), position⟩ 1).bind
          ReadSize.ofFloatLetter?).isSome = true := by
        rw [Scan.peekAt_succ_cons, Scan.peekAt_zero, Scan.peek_cons, Option.bind_some, hsize]
        rfl
      have hread := (reads_readFloatMemory hsize haddress hrest .address position).skip_one opening
      simp only [List.cons_append, Scan.peek_cons, hsome, if_true]
      rcases hopening with hopening | hopening
      · rw [hopening]
        exact hread
      · rw [hopening]
        exact hread
  | sized hmark hsize haddress =>
      rcases hmark with rfl | rfl
      · exact hmemory
      · exact hmemory
  | unsized hmark haddress =>
      rcases hmark with rfl | rfl
      · exact hmemory
      · exact hmemory

/-- What reads a number reads the constant. -/
theorem reads_word {read : Scan → Option (UInt32 × Scan)} {bytes rest : List UInt8} {word : UInt32}
    (hread : ∀ position,
      read ⟨bytes ++ rest, position⟩ = some (word, ⟨rest, position + bytes.length⟩))
    (start : Nat) :
    Reads (do return Operand.word (← Reader.require read .noNumber start)) bytes (.word word)
      rest :=
  Reads.map (fun position => run_require (hread position) _ _) Operand.word

/-- Decimal digits alone are a number, as long as no `x` behind a first zero makes it a place. -/
theorem reads_plain {bytes rest : List UInt8} {word : UInt32} (hword : SpellsWord 10 bytes word)
    (hrest : EndsOperand rest) : Reads Operand.read bytes (.word word) rest := by
  refine Reads.get_bind fun position => ?_
  have hunsigned (start : Nat) : Scan.readUnsigned ⟨bytes ++ rest, start⟩ =
      some (word, ⟨rest, start + bytes.length⟩) :=
    hword.readDigits (by decide) hrest.endsDecimal start
  have hread := reads_word hunsigned position
  obtain ⟨first, others, rfl, hall⟩ := hword.exists_cons
  have hdigits := mem_digits_of_decimal first (hall first (by simp))
  have hnone := hasHexMarkAt_digits
    (fun byte hmem => isSome_digitValue?_of_decimal byte (hall byte hmem)) (by simp) hrest position
  rw [List.cons_append] at hnone ⊢
  simp only [List.mem_cons, List.not_mem_nil, or_false] at hdigits
  -- Every digit leads past the letters, to the test for a `0x`.
  rcases hdigits with h | h | h | h | h | h | h | h | h | h
  all_goals
    simp only [Scan.peek_cons, h, hnone]
    exact hread

/-- What spells an operand is read as it, in front of anything that does not continue it. -/
theorem Operand.Spells.reads {bytes rest : List UInt8} {operand : Operand}
    (hspells : Operand.Spells bytes operand) (hrest : EndsOperand rest) :
    Reads Operand.read bytes operand rest := by
  cases hspells with
  | address hplace => exact reads_address hplace hrest
  | accessed haccess hplace => exact reads_accessed haccess hplace hrest
  | @hex letter bytes word hletter haddress =>
      refine Reads.get_bind fun position => ?_
      have hread := (reads_hexWord haddress hrest position).skip_one letter
      rcases hletter with hletter | hletter
      · rw [List.cons_append, Scan.peek_cons, hletter]
        exact hread
      · rw [List.cons_append, Scan.peek_cons, hletter]
        exact hread
  | plain hword => exact reads_plain hword hrest
  | @plus bytes word hword =>
      refine Reads.get_bind fun position => reads_word (fun start => ?_) position
      have hread := hword.readDigits (by decide) hrest.endsDecimal (start + 1)
      rw [List.length_cons, Nat.add_comm bytes.length, ← Nat.add_assoc]
      exact hread
  | @minus bytes word hword =>
      refine Reads.get_bind fun position => reads_word (fun start => ?_) position
      have hread := hword.readDigits (by decide) hrest.endsDecimal (start + 1)
      rw [List.length_cons, Nat.add_comm bytes.length, ← Nat.add_assoc]
      exact congrArg (Option.map fun result => (0 - min result.1 0x80000000, result.2)) hread

end AchievementLogic
