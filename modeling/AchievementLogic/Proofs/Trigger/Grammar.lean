import AchievementLogic.Proofs.Text.Reading
import AchievementLogic.Trigger.Text

/-!
# The grammar of definitions

The bytes that spell a trigger and its parts, without regard to how they are read.  Decimal
fractions are left out: where their digits end cannot be told from the point of a hit target.
-/

namespace AchievementLogic

open Text

/-- `0x` in either case. -/
def IsHexMark (bytes : List UInt8) : Prop := bytes = bytesOf "0x" ∨ bytes = bytesOf "0X"

/-- Digits of a base, at least one, for the word nearest to their number. -/
inductive SpellsWord (base : Nat) : List UInt8 → UInt32 → Prop
  | digits {bytes : List UInt8} {digits : List Nat} (hdigits : AreDigits base bytes digits)
      (hsome : bytes ≠ []) : SpellsWord base bytes (clampedWord (numberOf base digits))

/-- Hexadecimal digits, which may have a `0x` of their own. -/
inductive SpellsAddress : List UInt8 → UInt32 → Prop
  | plain {bytes : List UInt8} {address : UInt32} (hword : SpellsWord 16 bytes address) :
      SpellsAddress bytes address
  | marked {mark bytes : List UInt8} {address : UInt32} (hmark : IsHexMark mark)
      (hword : SpellsWord 16 bytes address) : SpellsAddress (mark ++ bytes) address

/-- An address with the size that is read there. -/
inductive SpellsPlace : List UInt8 → ReadSize → UInt32 → Prop
  | sized {mark bytes : List UInt8} {letter : UInt8} {size : ReadSize} {address : UInt32}
      (hmark : IsHexMark mark) (hsize : ReadSize.ofLetter? (Char.ofUInt8 letter) = some size)
      (haddress : SpellsAddress bytes address) : SpellsPlace (mark ++ letter :: bytes) size address
  | unsized {mark bytes : List UInt8} {address : UInt32} (hmark : IsHexMark mark)
      (haddress : SpellsAddress bytes address) :
      SpellsPlace (mark ++ bytes) (.word .two .little) address
  | float {opening letter : UInt8} {bytes : List UInt8} {size : ReadSize} {address : UInt32}
      (hopening : Char.ofUInt8 opening = 'f' ∨ Char.ofUInt8 opening = 'F')
      (hsize : ReadSize.ofFloatLetter? (Char.ofUInt8 letter) = some size)
      (haddress : SpellsAddress bytes address) :
      SpellsPlace (opening :: letter :: bytes) size address

/-- The access that a letter before a place asks for, in either case. -/
def Access.ofLetter? : Char → Option Access
  | 'd' | 'D' => some delta
  | 'p' | 'P' => some prior
  | 'b' | 'B' => some bcd
  | '~' => some inverted
  | _ => none

inductive Operand.Spells : List UInt8 → Operand → Prop
  | address {bytes : List UInt8} {size : ReadSize} {address : UInt32}
      (hplace : SpellsPlace bytes size address) :
      Spells bytes (.memory { access := .address, size, address })
  | accessed {letter : UInt8} {bytes : List UInt8} {access : Access} {size : ReadSize}
      {address : UInt32} (haccess : Access.ofLetter? (Char.ofUInt8 letter) = some access)
      (hplace : SpellsPlace bytes size address) :
      Spells (letter :: bytes) (.memory { access, size, address })
  | hex {letter : UInt8} {bytes : List UInt8} {word : UInt32}
      (hletter : Char.ofUInt8 letter = 'h' ∨ Char.ofUInt8 letter = 'H')
      (haddress : SpellsAddress bytes word) : Spells (letter :: bytes) (.word word)
  | plain {bytes : List UInt8} {word : UInt32} (hword : SpellsWord 10 bytes word) :
      Spells bytes (.word word)
  | plus {bytes : List UInt8} {word : UInt32} (hword : SpellsWord 10 bytes word) :
      Spells ('+'.toUInt8 :: bytes) (.word word)
  | minus {bytes : List UInt8} {word : UInt32} (hword : SpellsWord 10 bytes word) :
      Spells ('-'.toUInt8 :: bytes) (.word (0 - min word 0x80000000))

/-- A comparison by its mark; equality may have its sign twice. -/
inductive Comparison.Spells : List UInt8 → Comparison → Prop
  | mark (comparison : Comparison) : Spells (bytesOf comparison.mark) comparison
  | twice : Spells (bytesOf "==") .equal

inductive SpellsHits : List UInt8 → UInt32 → Prop
  | none : SpellsHits [] 0
  | round {bytes : List UInt8} {hits : UInt32} (hword : SpellsWord 10 bytes hits) :
      SpellsHits ('('.toUInt8 :: (bytes ++ [')'.toUInt8])) hits
  | dotted {bytes : List UInt8} {hits : UInt32} (hword : SpellsWord 10 bytes hits) :
      SpellsHits ('.'.toUInt8 :: (bytes ++ ['.'.toUInt8])) hits

inductive Role.Spells : List UInt8 → Role → Prop
  | standard : Spells [] (.check .standard)
  | letter {letter : UInt8} {role : Role}
      (hrole : Role.ofLetter? (Char.ofUInt8 letter) = some role) : Spells [letter, ':'.toUInt8] role

/-- A condition; only a modifier may be without a comparison. -/
inductive Condition.Spells : List UInt8 → Condition → Prop
  | compared {mark left sign right count : List UInt8} {role : Role} {source target : Operand}
      {comparison : Comparison} {requiredHits : UInt32} (hrole : Role.Spells mark role)
      (hsource : Operand.Spells left source) (hcomparison : Comparison.Spells sign comparison)
      (htarget : Operand.Spells right target) (hhits : SpellsHits count requiredHits) :
      Spells (mark ++ (left ++ (sign ++ (right ++ count))))
        { role, source, comparison? := some comparison, target, requiredHits }
  | alone {mark left count : List UInt8} {role : Role} {source : Operand} {requiredHits : UInt32}
      (hrole : Role.Spells mark role) (hmodifier : role.isModifier = true)
      (hsource : Operand.Spells left source) (hhits : SpellsHits count requiredHits) :
      Spells (mark ++ (left ++ count))
        { role, source, comparison? := none, target := default, requiredHits }

inductive Group.Spells : List UInt8 → Group → Prop
  | empty : Spells [] ⟨[]⟩
  | joined {bytes : List UInt8} {conditions : List Condition}
      (hconditions : Joined Condition.Spells '_'.toUInt8 bytes conditions) :
      Spells bytes ⟨conditions⟩

inductive Trigger.Spells : List UInt8 → Trigger → Prop
  | joined {bytes : List UInt8} {groups : List Group}
      (hgroups : Joined Group.Spells 'S'.toUInt8 bytes groups) : Spells bytes (ofGroups groups)

/-! ## What spellings begin with and are made of -/

/-- A decimal digit is a hexadecimal one. -/
theorem isSome_digitValue?_of_decimal : ∀ byte : UInt8,
    (digitValue? 10 (Char.ofUInt8 byte)).isSome → (digitValue? 16 (Char.ofUInt8 byte)).isSome :=
  forall_byte (by decide +kernel)

theorem IsHexMark.exists_letter {mark : List UInt8} (hmark : IsHexMark mark) :
    ∃ letter, mark = ['0'.toUInt8, letter] ∧ (letter = 'x'.toUInt8 ∨ letter = 'X'.toUInt8) := by
  rcases hmark with rfl | rfl
  · exact ⟨_, rfl, .inl rfl⟩
  · exact ⟨_, rfl, .inr rfl⟩

/-- The bytes of a word are digits, the first of which comes next. -/
theorem SpellsWord.exists_cons {base : Nat} {bytes : List UInt8} {word : UInt32}
    (hword : SpellsWord base bytes word) :
    ∃ first others, bytes = first :: others ∧
      ∀ byte ∈ bytes, (digitValue? base (Char.ofUInt8 byte)).isSome := by
  cases hword with
  | @digits digits hdigits hsome =>
      obtain ⟨first, others, hbytes⟩ := List.exists_cons_of_ne_nil hsome
      exact ⟨first, others, hbytes, hdigits.isSome_digitValue?⟩

/-- An address begins with a digit, which may be that of a `0x`. -/
theorem SpellsAddress.exists_cons {bytes : List UInt8} {address : UInt32}
    (haddress : SpellsAddress bytes address) :
    ∃ first others, bytes = first :: others ∧
      (digitValue? 16 (Char.ofUInt8 first)).isSome := by
  cases haddress with
  | plain hword =>
      obtain ⟨first, others, rfl, hall⟩ := hword.exists_cons
      exact ⟨first, others, rfl, hall first (by simp)⟩
  | marked hmark hword =>
      obtain ⟨letter, rfl, -⟩ := hmark.exists_letter
      exact ⟨_, _, rfl, rfl⟩

/-- Neither the colon of a role nor the sign of a comparison. -/
def IsOperandByte (byte : UInt8) : Prop := Char.ofUInt8 byte ≠ ':' ∧ Char.ofUInt8 byte ≠ '='

instance (byte : UInt8) : Decidable (IsOperandByte byte) := inferInstanceAs (Decidable (_ ∧ _))

/-- Digits and the letters of sizes and accesses may stand in an operand. -/
theorem isOperandByte_of_letter : ∀ byte : UInt8,
    (digitValue? 16 (Char.ofUInt8 byte)).isSome ∨ (ReadSize.ofLetter? (Char.ofUInt8 byte)).isSome ∨
      (ReadSize.ofFloatLetter? (Char.ofUInt8 byte)).isSome ∨
      (Access.ofLetter? (Char.ofUInt8 byte)).isSome → IsOperandByte byte :=
  forall_byte (by decide +kernel)

theorem SpellsWord.isOperandByte {bytes : List UInt8} {word : UInt32}
    (hword : SpellsWord 16 bytes word) : ∀ byte ∈ bytes, IsOperandByte byte := by
  obtain ⟨first, others, -, hall⟩ := hword.exists_cons
  exact fun byte hmem => isOperandByte_of_letter byte (.inl (hall byte hmem))

theorem IsHexMark.isOperandByte {mark : List UInt8} (hmark : IsHexMark mark) :
    ∀ byte ∈ mark, IsOperandByte byte := by
  obtain ⟨letter, rfl, hletter⟩ := hmark.exists_letter
  have hzero : IsOperandByte '0'.toUInt8 := by decide
  have hx : IsOperandByte letter := by
    rcases hletter with rfl | rfl <;> decide
  simp [hzero, hx]

theorem SpellsAddress.isOperandByte {bytes : List UInt8} {address : UInt32}
    (haddress : SpellsAddress bytes address) : ∀ byte ∈ bytes, IsOperandByte byte := by
  cases haddress with
  | plain hword => exact hword.isOperandByte
  | marked hmark hword =>
      exact List.forall_mem_append.mpr ⟨hmark.isOperandByte, hword.isOperandByte⟩

theorem SpellsPlace.isOperandByte {bytes : List UInt8} {size : ReadSize} {address : UInt32}
    (hplace : SpellsPlace bytes size address) : ∀ byte ∈ bytes, IsOperandByte byte := by
  cases hplace with
  | sized hmark hsize haddress =>
      have hletter := isOperandByte_of_letter _ (.inr (.inl (Option.isSome_of_eq_some hsize)))
      exact List.forall_mem_append.mpr
        ⟨hmark.isOperandByte, List.forall_mem_cons.mpr ⟨hletter, haddress.isOperandByte⟩⟩
  | unsized hmark haddress =>
      exact List.forall_mem_append.mpr ⟨hmark.isOperandByte, haddress.isOperandByte⟩
  | @float opening letter _ _ _ hopening hsize haddress =>
      have hletter := isOperandByte_of_letter _
        (.inr (.inr (.inl (Option.isSome_of_eq_some hsize))))
      have hfirst : IsOperandByte opening := by
        rcases hopening with h | h <;> simp [IsOperandByte, h]
      exact List.forall_mem_cons.mpr
        ⟨hfirst, List.forall_mem_cons.mpr ⟨hletter, haddress.isOperandByte⟩⟩

theorem isOperandByte_of_decimal {bytes : List UInt8} {word : UInt32}
    (hword : SpellsWord 10 bytes word) : ∀ byte ∈ bytes, IsOperandByte byte := by
  obtain ⟨first, others, -, hall⟩ := hword.exists_cons
  intro byte hmem
  exact isOperandByte_of_letter byte (.inl (isSome_digitValue?_of_decimal byte (hall byte hmem)))

/-- Bytes that can stand for an operand between a role and a comparison. -/
structure AreOperandBytes (bytes : List UInt8) : Prop where
  ne_nil : bytes ≠ []
  all : ∀ byte ∈ bytes, IsOperandByte byte

/-- No operand has a byte that would end a role or begin a comparison. -/
theorem Operand.Spells.isOperandByte {bytes : List UInt8} {operand : Operand}
    (hspells : Operand.Spells bytes operand) : ∀ byte ∈ bytes, IsOperandByte byte := by
  cases hspells with
  | address hplace => exact hplace.isOperandByte
  | accessed haccess hplace =>
      have hletter := isOperandByte_of_letter _
        (.inr (.inr (.inr (Option.isSome_of_eq_some haccess))))
      exact List.forall_mem_cons.mpr ⟨hletter, hplace.isOperandByte⟩
  | @hex letter _ _ hletter haddress =>
      have hfirst : IsOperandByte letter := by
        rcases hletter with h | h <;> simp [IsOperandByte, h]
      exact List.forall_mem_cons.mpr ⟨hfirst, haddress.isOperandByte⟩
  | plain hword => exact isOperandByte_of_decimal hword
  | plus hword =>
      exact List.forall_mem_cons.mpr ⟨by decide, isOperandByte_of_decimal hword⟩
  | minus hword =>
      exact List.forall_mem_cons.mpr ⟨by decide, isOperandByte_of_decimal hword⟩

/-- No operand begins like the separator of groups. -/
theorem Operand.Spells.exists_cons {bytes : List UInt8} {operand : Operand}
    (hspells : Operand.Spells bytes operand) :
    ∃ first others, bytes = first :: others ∧ Char.ofUInt8 first ≠ 'S' := by
  have hplain {base : Nat} {digits : List UInt8} {word : UInt32}
      (hword : SpellsWord base digits word) (hbase : digitValue? base 'S' = none) :
      ∃ first others, digits = first :: others ∧ Char.ofUInt8 first ≠ 'S' := by
    obtain ⟨first, others, rfl, hall⟩ := hword.exists_cons
    refine ⟨first, others, rfl, ?_⟩
    intro heq
    have hdigit := hall first (by simp)
    rw [heq, hbase] at hdigit
    cases hdigit
  cases hspells with
  | address hplace =>
      cases hplace with
      | float hopening hsize haddress =>
          refine ⟨_, _, rfl, ?_⟩
          rcases hopening with h | h <;> simp [h]
      | sized hmark hsize haddress =>
          obtain ⟨letter, rfl, -⟩ := hmark.exists_letter
          exact ⟨_, _, rfl, by decide⟩
      | unsized hmark haddress =>
          obtain ⟨letter, rfl, -⟩ := hmark.exists_letter
          exact ⟨_, _, rfl, by decide⟩
  | accessed haccess hplace =>
      refine ⟨_, _, rfl, ?_⟩
      intro heq
      rw [heq] at haccess
      cases haccess
  | hex hletter haddress =>
      refine ⟨_, _, rfl, ?_⟩
      rcases hletter with h | h <;> simp [h]
  | plain hword => exact hplain hword (by decide)
  | plus hword => exact ⟨_, _, rfl, by decide⟩
  | minus hword => exact ⟨_, _, rfl, by decide⟩

/-- No condition begins like the separator of groups or like a colon. -/
theorem Condition.Spells.exists_cons {bytes : List UInt8} {condition : Condition}
    (hspells : Condition.Spells bytes condition) :
    ∃ first others, bytes = first :: others ∧ Char.ofUInt8 first ≠ 'S' ∧
      Char.ofUInt8 first ≠ ':' := by
  have hrole {mark left after : List UInt8} {role : Role} {operand : Operand}
      (hmark : Role.Spells mark role) (hleft : Operand.Spells left operand) :
      ∃ first others, mark ++ (left ++ after) = first :: others ∧ Char.ofUInt8 first ≠ 'S' ∧
        Char.ofUInt8 first ≠ ':' := by
    cases hmark with
    | standard =>
        obtain ⟨first, others, rfl, hfirst⟩ := hleft.exists_cons
        exact ⟨first, _, rfl, hfirst, (hleft.isOperandByte first (by simp)).1⟩
    | letter hletter =>
        refine ⟨_, _, rfl, ?_, ?_⟩
        · intro heq
          rw [heq] at hletter
          cases hletter
        · intro heq
          rw [heq] at hletter
          cases hletter
  cases hspells with
  | compared hmark hsource hcomparison htarget hhits => exact hrole hmark hsource
  | alone hmark hmodifier hsource hhits => exact hrole hmark hsource

end AchievementLogic
