import AchievementLogic.Proofs.Number.DoubleText
import AchievementLogic.Proofs.Trigger.Printing

/-!
# Float literals in front of a hit target

A float literal that is a whole number is written without a point, and what is written of a hit
target begins with one.  Where the first stands right before the second, the count is read as the
fraction of the literal, and the point that is left over is no hit target.  Every other condition
without infinite literals is read back as it was.
-/

namespace AchievementLogic

open Text Reader

/-! ## The text of a float literal -/

theorem Text.Fraction.isOperandByte (fraction : Fraction) :
    ∀ byte ∈ fraction.bytes, IsOperandByte byte := by
  intro byte hmem
  rcases Fraction.mem_bytes hmem with rfl | ⟨digit, hdigit, rfl⟩ | ⟨rfl, -⟩
  · decide
  · interval_cases digit <;> decide
  · decide

namespace Operand

/-- Neither infinite nor a NaN, if it is a float literal. -/
def isFinite : Operand → Bool
  | .float number => number.isFinite
  | _ => true

/-- A float literal that is written without a point. -/
def isWholeFloat (operand : Operand) : Bool :=
  operand.isFloatLiteral && !operand.text.toList.contains '.'

theorem isFloatLiteral_of_isWholeFloat {operand : Operand} (hwhole : operand.isWholeFloat = true) :
    operand.isFloatLiteral = true := by
  rw [isWholeFloat, Bool.and_eq_true] at hwhole
  exact hwhole.1

/-- A finite literal is written as a fraction after an `f`. -/
theorem exists_fraction {operand : Operand} (hfloat : operand.isFloatLiteral = true)
    (hfinite : operand.isFinite = true) :
    ∃ fraction : Fraction, bytesOf operand.text = 'f'.toUInt8 :: fraction.bytes ∧
      operand = .float fraction.number ∧
      (operand.isWholeFloat = true ↔ fraction.places = []) := by
  cases operand with
  | float number =>
      obtain ⟨fraction, hbytes, hnumber⟩ := Decimal.exists_fraction_text hfinite
      have htext : bytesOf (text (.float number)) = 'f'.toUInt8 :: fraction.bytes := by
        rw [text, bytesOf_append, hbytes]
        rfl
      have hpoint : '.' ∈ (text (.float number)).toList ↔ fraction.places ≠ [] := by
        have hletter : '.'.toUInt8 ≠ 'f'.toUInt8 := by decide
        rw [← mem_bytesOf_iff (by decide), htext, List.mem_cons, Fraction.point_mem_bytes_iff]
        simp [hletter]
      refine ⟨fraction, htext, by rw [hnumber], ?_⟩
      simp [isWholeFloat, isFloatLiteral, hpoint]
  | memory inner => cases hfloat
  | word value => cases hfloat

/-- After an `f` a fraction is read in full, as its first byte is no size. -/
theorem reads_fraction {fraction : Fraction} {rest : List UInt8} (hrest : fraction.EndsBefore rest) :
    Reads read ('f'.toUInt8 :: fraction.bytes) (.float fraction.number) rest := by
  refine Reads.get_bind fun position => ?_
  have hsize : ((Scan.peekAt ⟨'f'.toUInt8 :: (fraction.bytes ++ rest), position⟩ 1).bind
      ReadSize.ofFloatLetter?).isSome = false := by
    obtain ⟨first, others, hbytes, hfirst⟩ := fraction.exists_bytes_eq_cons
    rw [hbytes, Scan.peekAt_succ_cons, List.cons_append, Scan.peekAt_zero, Scan.peek_cons,
      Option.bind_some]
    rcases hfirst with rfl | ⟨digit, hdigit, rfl⟩
    · decide
    · interval_cases digit <;> decide
  have hliteral : Reads (do return float (← Reader.require Scan.readFloat .noFloatNumber position))
      fraction.bytes (.float fraction.number) rest :=
    Reads.map (fun start => run_require (hrest.readFloat_append start) _ _) Operand.float
  have hletter : Char.ofUInt8 'f'.toUInt8 = 'f' := rfl
  rw [List.cons_append, Scan.peek_cons, hletter]
  simp only [hsize]
  exact hliteral.skip_one 'f'.toUInt8

variable {operand : Operand}

theorem areOperandBytes_fraction (fraction : Fraction) :
    AreOperandBytes ('f'.toUInt8 :: fraction.bytes) :=
  ⟨List.cons_ne_nil _ _, List.forall_mem_cons.mpr ⟨by decide, fraction.isOperandByte⟩⟩

theorem areOperandBytes_text (hfresh : operand.fresh = operand)
    (hfinite : operand.isFinite = true) : AreOperandBytes (bytesOf operand.text) := by
  cases hfloat : operand.isFloatLiteral with
  | false => exact (spells_text hfresh hfloat).areOperandBytes
  | true =>
      obtain ⟨fraction, hbytes, -, -⟩ := exists_fraction hfloat hfinite
      rw [hbytes]
      exact areOperandBytes_fraction fraction

/-- An operand is read as it was written, a whole literal only where no point comes next. -/
theorem reads_text (hfresh : operand.fresh = operand) (hfinite : operand.isFinite = true)
    {rest : List UInt8} (hrest : EndsOperand rest)
    (hpoint : operand.isWholeFloat = true → ∀ byte ∈ rest.head?, Char.ofUInt8 byte ≠ '.') :
    Reads read (bytesOf operand.text) operand rest := by
  cases hfloat : operand.isFloatLiteral with
  | false => exact (spells_text hfresh hfloat).reads hrest
  | true =>
      obtain ⟨fraction, hbytes, hoperand, hwhole⟩ := exists_fraction hfloat hfinite
      have hends : fraction.EndsBefore rest :=
        { digits := hrest.endsDecimal
          point := fun hplaces byte hmem heq =>
            absurd heq (hpoint (hwhole.mpr hplaces) byte hmem) }
      have hread := reads_fraction hends
      rwa [← hbytes, ← hoperand] at hread

/-- A whole literal and what follows it up to the last point of a hit target are one fraction. -/
theorem exists_merged (hfinite : operand.isFinite = true) (hwhole : operand.isWholeFloat = true)
    (count : ℕ) :
    ∃ merged : Fraction, merged.places ≠ [] ∧
      bytesOf operand.text ++ '.'.toUInt8 :: bytesOf (toString count) =
        'f'.toUInt8 :: merged.bytes := by
  obtain ⟨fraction, htext, -, hplaces⟩ :=
    exists_fraction (isFloatLiteral_of_isWholeFloat hwhole) hfinite
  obtain ⟨digits, hletters, hsome, hlt, -⟩ := Decimal.toList_toString count
  refine ⟨fraction.withPlaces digits hlt, hsome, ?_⟩
  rw [Fraction.bytes_withPlaces (hplaces.mp hwhole) hlt hsome, htext,
    Decimal.bytesOf_of_toList hletters hlt, List.cons_append]

end Operand

/-! ## The last operand of a condition -/

namespace Condition

/-- The operand that the hit target is written after. -/
def lastOperand (condition : Condition) : Operand :=
  match condition.comparison? with
  | some _ => condition.target
  | none => condition.source

def withLastOperand (condition : Condition) (operand : Operand) : Condition :=
  match condition.comparison? with
  | some _ => { condition with target := operand }
  | none => { condition with source := operand }

def leadText (condition : Condition) : String :=
  match condition.comparison? with
  | some comparison => condition.role.mark ++ condition.source.text ++ comparison.mark
  | none => condition.role.mark

def hitsText (condition : Condition) : String :=
  if condition.hasTarget then s!".{condition.requiredHits.toNat}." else ""

/-- The hit target is written after a literal without a point. -/
def mergesHits (condition : Condition) : Bool :=
  condition.hasTarget && condition.lastOperand.isWholeFloat

theorem withLastOperand_lastOperand (condition : Condition) :
    condition.withLastOperand condition.lastOperand = condition := by
  obtain ⟨role, source, comparison?, target, requiredHits, hits⟩ := condition
  cases comparison? <;> rfl

theorem lastOperand_mem_operands (condition : Condition) :
    condition.lastOperand ∈ condition.operands := by
  rw [lastOperand]
  split <;> simp [operands]

theorem fresh_lastOperand {condition : Condition} (hread : condition.IsRead) :
    condition.lastOperand.fresh = condition.lastOperand := by
  have hfresh := hread.fresh
  rw [lastOperand]
  split
  · exact congrArg Condition.target hfresh
  · exact congrArg Condition.source hfresh

theorem bytesOf_text (condition : Condition) :
    bytesOf condition.text =
      bytesOf condition.leadText ++
        (bytesOf condition.lastOperand.text ++ bytesOf condition.hitsText) := by
  obtain ⟨role, source, comparison?, target, requiredHits, hits⟩ := condition
  cases comparison? <;> simp [text, leadText, lastOperand, hitsText, bytesOf_append]

/-- Whatever is read for the last operand, the hit target comes next. -/
theorem leads_lastOperand {condition : Condition} (hread : condition.IsRead)
    (hfinite : ∀ operand ∈ condition.operands, operand.isFinite = true) {bytes rest : List UInt8}
    {last : Operand} (hbytes : AreOperandBytes bytes) (hlast : Reads Operand.read bytes last rest)
    (hrest : FollowedBy ['(', '.', '_', 'S', ':'] rest) :
    Leads read (bytesOf condition.leadText ++ bytes)
      (do return { condition.withLastOperand last with requiredHits := ← readHits }) rest := by
  obtain ⟨role, source, comparison?, target, requiredHits, hits⟩ := condition
  obtain ⟨hfresh, halone⟩ := hread
  simp only [fresh, Condition.mk.injEq] at hfresh
  obtain ⟨-, hsource, -, -, -, rfl⟩ := hfresh
  -- The source is followed by the sign of a comparison, so no point can merge with it.
  cases comparison? with
  | some comparison =>
      have hsourceFinite := hfinite source (by simp [operands])
      have hsign := (Comparison.Spells.mark comparison).followedBy (bytes ++ rest)
      have hfirst := Operand.reads_text hsource hsourceFinite
        (hsign.endsOperand (by simp [digitValue?])) fun _ => hsign.ne (by decide)
      have hleads := leads_compared role.spells_mark
        (Operand.areOperandBytes_text hsource hsourceFinite) hfirst (.mark comparison) hbytes hlast
      simpa [leadText, withLastOperand, bytesOf_append] using hleads
  | none =>
      obtain ⟨hmodifier, rfl⟩ := halone rfl
      exact leads_alone role.spells_mark hmodifier hlast hrest

/-! ## Reading a condition that was written -/

/-- A condition whose last operand is kept apart from its hit target is read back. -/
theorem reads_text {condition : Condition} (hread : condition.IsRead)
    (hfinite : ∀ operand ∈ condition.operands, operand.isFinite = true)
    (hapart : condition.mergesHits = false) : Reads read (bytesOf condition.text) condition [] := by
  have hlastFinite := hfinite _ condition.lastOperand_mem_operands
  have hnothing : EndsCondition [] := .nil _
  have hhits : SpellsHits (bytesOf condition.hitsText) condition.requiredHits :=
    spellsHits_text condition.requiredHits
  have hcount := hhits.followedBy hnothing
  have hpoint : condition.lastOperand.isWholeFloat = true →
      ∀ byte ∈ (bytesOf condition.hitsText ++ []).head?, Char.ofUInt8 byte ≠ '.' := by
    intro hwhole byte hmem
    rw [mergesHits, hwhole, Bool.and_true] at hapart
    rw [hitsText, if_neg (by simp [hapart])] at hmem
    cases hmem
  have hlast := Operand.reads_text (fresh_lastOperand hread) hlastFinite
    (hcount.endsOperand (by simp [digitValue?])) hpoint
  have hleads := leads_lastOperand hread hfinite
    (Operand.areOperandBytes_text (fresh_lastOperand hread) hlastFinite) hlast hcount
  have hwhole := hleads.reads ((hhits.reads hnothing).map fun requiredHits =>
    ({ condition.withLastOperand condition.lastOperand with requiredHits } : Condition))
  rw [withLastOperand_lastOperand] at hwhole
  rwa [bytesOf_text, ← List.append_assoc]

/-- A hit target after a literal without a point leaves a point over. -/
theorem run_text_of_mergesHits {condition : Condition} (hread : condition.IsRead)
    (hfinite : ∀ operand ∈ condition.operands, operand.isFinite = true)
    (hmerges : condition.mergesHits = true) :
    ∃ after, read.run (Scan.ofString condition.text) =
      .error ⟨.noHitCount, some (condition.text.utf8ByteSize - 1)⟩ after := by
  rw [mergesHits, Bool.and_eq_true] at hmerges
  obtain ⟨htarget, hwhole⟩ := hmerges
  obtain ⟨merged, hplaces, hmerged⟩ := Operand.exists_merged
    (hfinite _ condition.lastOperand_mem_operands) hwhole condition.requiredHits.toNat
  have hpoint : FollowedBy ['.'] ['.'.toUInt8] := .cons (by decide) []
  have hends : merged.EndsBefore ['.'.toUInt8] :=
    { digits := (hpoint.endsOperand (by simp [digitValue?])).endsDecimal
      point := fun hnone => absurd hnone hplaces }
  have hrun := leads_lastOperand hread hfinite (Operand.areOperandBytes_fraction merged)
    (Operand.reads_fraction hends) (hpoint.mono (by simp)) 0
  obtain ⟨before, hbefore⟩ : ∃ before,
      before = bytesOf condition.leadText ++ 'f'.toUInt8 :: merged.bytes := ⟨_, rfl⟩
  have hparts : bytesOf condition.text = before ++ ['.'.toUInt8] := by
    rw [hbefore, ← hmerged, bytesOf_text, hitsText, if_pos htarget, bytesOf_dotted]
    simp only [List.append_assoc, List.cons_append]
  have hsize : condition.text.utf8ByteSize - 1 = 0 + before.length := by
    rw [← length_bytesOf, hparts, List.length_append, List.length_singleton]
    omega
  rw [← hbefore, ← hparts] at hrun
  -- Only the last point is left: it opens a hit target, and no number comes after it.
  rw [hsize]
  exact ⟨_, hrun⟩

/-- What is read from a condition that was itself read and written again: the same condition, unless
its hit target is written after a literal without a point.  Then the text is not accepted. -/
theorem readAll_text_of_isFinite {text : String} {condition : Condition}
    (hread : read.readAll text = .ok condition)
    (hfinite : ∀ operand ∈ condition.operands, operand.isFinite = true) :
    read.readAll condition.text =
      if condition.mergesHits then
        .error ⟨.noHitCount, some (condition.text.utf8ByteSize - 1)⟩
      else .ok condition := by
  have hisRead := ensures_read.readAll hread
  cases hmerges : condition.mergesHits with
  | true =>
      obtain ⟨after, hrun⟩ := run_text_of_mergesHits hisRead hfinite hmerges
      exact readAll_of_error hrun
  | false => exact readAll_of_reads (reads_text hisRead hfinite hmerges)

/-- One float literal, a target and hits on one byte of memory. -/
def floatCondition (number : Float) (requiredHits : UInt32) : Condition :=
  { role := .check .standard
    source := .memory { access := .address, size := .byte, address := 0 }
    comparison? := some .equal
    target := .float number
    requiredHits }

theorem readAll_text_of_isFinite_half :
    read.readAll "0xH0000=f1.5(3)" = .ok (floatCondition (Float.ofBits 0x3FF8000000000000) 3) ∧
      read.readAll (floatCondition (Float.ofBits 0x3FF8000000000000) 3).text =
        .ok (floatCondition (Float.ofBits 0x3FF8000000000000) 3) := by
  have hread : read.readAll "0xH0000=f1.5(3)" =
      .ok (floatCondition (Float.ofBits 0x3FF8000000000000) 3) := by rfl
  have hfinite : ∀ operand ∈ (floatCondition (Float.ofBits 0x3FF8000000000000) 3).operands,
      operand.isFinite = true := by decide +kernel
  have hapart : (floatCondition (Float.ofBits 0x3FF8000000000000) 3).mergesHits = false := by
    decide +kernel
  refine ⟨hread, ?_⟩
  rw [readAll_text_of_isFinite hread hfinite, hapart]
  rfl

/-- The text of a whole literal and five hits is read as the literal 1.5 and a point. -/
theorem not_forall_readAll_text :
    ¬ ∀ (text : String) (condition : Condition), read.readAll text = .ok condition →
      (∀ operand ∈ condition.operands, operand.isFinite = true) →
      read.readAll condition.text = .ok condition := by
  intro hall
  have hread : read.readAll "0xH0000=f1(5)" =
      .ok (floatCondition (Float.ofBits 0x3FF0000000000000) 5) := by rfl
  have hfinite : ∀ operand ∈ (floatCondition (Float.ofBits 0x3FF0000000000000) 5).operands,
      operand.isFinite = true := by decide +kernel
  have htext : (floatCondition (Float.ofBits 0x3FF0000000000000) 5).text = "0xH0000=f1.5." := by
    decide +kernel
  have hreread := hall _ _ hread hfinite
  have hrejected : read.readAll "0xH0000=f1.5." = .error ⟨.noHitCount, some 12⟩ := by rfl
  rw [htext, hrejected] at hreread
  cases hreread

end Condition

end AchievementLogic
