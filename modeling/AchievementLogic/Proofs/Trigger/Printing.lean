import AchievementLogic.Proofs.Trigger.Readings
import AchievementLogic.Proofs.Trigger.TriggerReading
import Mathlib.Tactic.FinCases

/-!
# Reading what was written

The text of a trigger spells that trigger without its empty alternates, so it is read back as that.
This holds of every trigger that was itself read from a text and has no decimal fraction in it.
-/

namespace AchievementLogic

open Text Reader

/-! ## Texts do not show what conditions remember -/

theorem Operand.text_fresh (operand : Operand) : operand.fresh.text = operand.text := by
  cases operand <;> rfl

theorem Condition.text_fresh (condition : Condition) : condition.fresh.text = condition.text := by
  simp only [text, fresh, Operand.text_fresh]
  rfl

theorem Group.text_fresh (group : Group) : group.fresh.text = group.text := by
  simp [text, fresh, Function.comp_def, Condition.text_fresh]

theorem Trigger.text_fresh (trigger : Trigger) : trigger.fresh.text = trigger.text := by
  simp [text, fresh, List.filter_map, Function.comp_def, Group.text_fresh]

/-! ## Operands -/

theorem spellsWord_toString_nat (number : Nat) :
    SpellsWord 10 (bytesOf (toString number)) (clampedWord number) := by
  obtain ⟨digits, hdigits, hsome, hnumber⟩ := areDigits_toString number
  have hword := SpellsWord.digits hdigits hsome
  rwa [hnumber] at hword

theorem spellsWord_toString (word : UInt32) :
    SpellsWord 10 (bytesOf (toString word.toNat)) word := by
  simpa using spellsWord_toString_nat word.toNat

/-- Zeros in front of its digits do not keep a text from spelling an address. -/
theorem spellsWord_padded (width : Nat) (address : UInt32) :
    let digits := Nat.toDigits 16 address.toNat
    SpellsWord 16
      (bytesOf (String.ofList (List.replicate (width - digits.length) '0' ++ digits))) address := by
  intro letters
  obtain ⟨digits, hletters, hsome, hlt, hnumber⟩ :=
    exists_toDigits (by decide : 1 < 16) address.toNat
  have hpadded : List.replicate (width - letters.length) '0' ++ letters =
      (List.replicate (width - letters.length) 0 ++ digits).map Nat.digitChar := by
    rw [List.map_append, List.map_replicate, ← hletters]
    rfl
  have hall : ∀ digit ∈ List.replicate (width - letters.length) 0 ++ digits, digit < 16 := by
    intro digit hmem
    rcases List.mem_append.mp hmem with hzero | hold
    · rw [List.eq_of_mem_replicate hzero]
      decide
    · exact hlt digit hold
  have hword := SpellsWord.digits (areDigits_map_digitByte (by decide) hall)
    (by simpa using fun _ => hsome)
  rw [numberOf_replicate_zero_append, hnumber, clampedWord_toNat] at hword
  rw [hpadded, bytesOf_digitChars hall]
  exact hword

/-- The mark of a size ends in the letter that names it. -/
theorem ReadSize.bytesOf_mark (size : ReadSize) :
    (∃ letter, bytesOf size.mark = bytesOf "0x" ++ [letter] ∧
      ofLetter? (Char.ofUInt8 letter) = some size) ∨
    (∃ letter, bytesOf size.mark = ['f'.toUInt8, letter] ∧
      ofFloatLetter? (Char.ofUInt8 letter) = some size) := by
  cases size with
  | bit index => fin_cases index <;> exact .inl ⟨_, rfl, rfl⟩
  | word width order => cases width <;> cases order <;> exact .inl ⟨_, rfl, rfl⟩
  | float encoding order => cases encoding <;> cases order <;> exact .inr ⟨_, rfl, rfl⟩
  | _ => exact .inl ⟨_, rfl, rfl⟩

theorem spellsPlace_addressText (size : ReadSize) (address : UInt32) :
    SpellsPlace (bytesOf (Operand.addressText size address)) size address := by
  have haddress := SpellsAddress.plain
    (spellsWord_padded (if address < 0x10000 then 4 else 6) address)
  rw [Operand.addressText, bytesOf_append]
  rcases size.bytesOf_mark with ⟨letter, hmark, hsize⟩ | ⟨letter, hmark, hsize⟩
  · rw [hmark, List.append_assoc]
    exact .sized (.inl rfl) hsize haddress
  · rw [hmark]
    exact .float (.inl rfl) hsize haddress

def Operand.isFloatLiteral : Operand → Bool
  | .float _ => true
  | _ => false

theorem Operand.isFloatLiteral_fresh (operand : Operand) :
    operand.fresh.isFloatLiteral = operand.isFloatLiteral := by
  cases operand <;> rfl

/-- What is written of an operand spells it, unless it is a decimal fraction. -/
theorem Operand.spells_text {operand : Operand} (hfresh : operand.fresh = operand)
    (hfloat : operand.isFloatLiteral = false) : Operand.Spells (bytesOf operand.text) operand := by
  cases operand with
  | memory inner =>
      obtain ⟨access, size, address, history⟩ := inner
      obtain rfl : {} = history := by
        simpa [fresh] using hfresh
      have hplace := spellsPlace_addressText size address
      rw [text, bytesOf_append]
      cases access with
      | address => exact .address hplace
      | delta => exact .accessed rfl hplace
      | prior => exact .accessed rfl hplace
      | bcd => exact .accessed rfl hplace
      | inverted => exact .accessed rfl hplace
  | word value => exact .plain (spellsWord_toString value)
  | float number => cases hfloat

/-! ## Conditions -/

/-- A condition as it is read from a text: nothing has been remembered yet, and without a comparison
it is a modifier without a target. -/
structure Condition.IsRead (condition : Condition) : Prop where
  fresh : condition.fresh = condition
  alone : condition.comparison? = none →
    condition.role.isModifier = true ∧ condition.target = default

theorem Role.spells_mark (role : Role) : Role.Spells (bytesOf role.mark) role := by
  cases role with
  | check kind =>
      cases kind with
      | standard => exact .standard
      | _ => exact .letter rfl
  | modifier kind => cases kind <;> exact .letter rfl
  | tally kind => cases kind <;> exact .letter rfl
  | combiner kind => cases kind <;> exact .letter rfl
  | resetNextIf => exact .letter rfl
  | guard kind => cases kind <;> exact .letter rfl

theorem bytesOf_dotted (count : ℕ) :
    bytesOf s!".{count}." = '.'.toUInt8 :: (bytesOf (toString count) ++ ['.'.toUInt8]) := by
  have htext : s!".{count}." = "." ++ toString count ++ "." := rfl
  rw [htext, bytesOf_append, bytesOf_append]
  rfl

/-- What is written of a hit target, nothing for none. -/
theorem spellsHits_text (hits : UInt32) :
    SpellsHits (bytesOf (if hits != 0 then s!".{hits.toNat}." else "")) hits := by
  by_cases hzero : hits = 0
  · rw [hzero]
    exact .none
  · rw [if_pos (by simpa using hzero), bytesOf_dotted]
    exact .dotted (spellsWord_toString hits)

/-- What is written of a condition spells it, unless it has a decimal fraction. -/
theorem Condition.spells_text {condition : Condition} (hread : condition.IsRead)
    (hfloat : ∀ operand ∈ condition.operands, operand.isFloatLiteral = false) :
    Condition.Spells (bytesOf condition.text) condition := by
  obtain ⟨role, source, comparison?, target, requiredHits, hits⟩ := condition
  obtain ⟨hfresh, halone⟩ := hread
  simp only [fresh, Condition.mk.injEq] at hfresh
  obtain ⟨-, hsource, -, htarget, -, rfl⟩ := hfresh
  have hleft := Operand.spells_text hsource (hfloat source (by simp [operands]))
  have hrole := role.spells_mark
  have hhits := spellsHits_text requiredHits
  cases comparison? with
  | some comparison =>
      have hright := Operand.spells_text htarget (hfloat target (by simp [operands]))
      have hspells := Condition.Spells.compared hrole hleft (.mark comparison) hright hhits
      simpa [text, bytesOf_append, hasTarget] using hspells
  | none =>
      obtain ⟨hmodifier, rfl⟩ := halone rfl
      have hspells := Condition.Spells.alone hrole hmodifier hleft hhits
      simpa [text, bytesOf_append, hasTarget] using hspells

/-! ## Groups and triggers -/

/-- Items joined by a one-byte separator. -/
theorem joined_intercalate {Value : Type} {spells : List UInt8 → Value → Prop} {separator : UInt8}
    {write : Value → List UInt8} {values : List Value} (hsome : values ≠ [])
    (hspells : ∀ value ∈ values, spells (write value) value) :
    Joined spells separator ([separator].intercalate (values.map write)) values := by
  induction values with
  | nil => exact absurd rfl hsome
  | cons head tail ih =>
      have hhead := hspells head (by simp)
      cases tail with
      | nil => simpa using Joined.single hhead
      | cons second others =>
          have hothers := ih (by simp) fun value hmem => hspells value (by simp [hmem])
          rw [List.map_cons, List.map_cons, List.intercalate_cons_cons, List.append_assoc]
          exact .cons hhead hothers

theorem Group.spells_text {group : Group} (hread : ∀ condition ∈ group.conditions, condition.IsRead)
    (hfloat : ∀ condition ∈ group.conditions, ∀ operand ∈ condition.operands,
      operand.isFloatLiteral = false) : Group.Spells (bytesOf group.text) group := by
  obtain ⟨conditions⟩ := group
  by_cases hempty : conditions = []
  · rw [hempty]
    exact .empty
  · rw [text, bytesOf_intercalate, List.map_map]
    exact .joined (joined_intercalate hempty fun condition hmem =>
      Condition.spells_text (hread condition hmem) (hfloat condition hmem))

namespace Trigger

structure IsRead (trigger : Trigger) : Prop where
  conditions : ∀ group ∈ trigger.groups, ∀ condition ∈ group.conditions, condition.IsRead
  primed : trigger.primed = false
  measured? : trigger.measured? = none

def withoutEmpty (trigger : Trigger) : Trigger :=
  { trigger with alternates := trigger.alternates.filter (!·.isEmpty) }

theorem text_withoutEmpty (trigger : Trigger) : trigger.withoutEmpty.text = trigger.text := by
  simp [text, withoutEmpty]

theorem bytesOf_joinedGroups (core : Group) (alternates : List Group) :
    bytesOf (core.text ++ String.join (alternates.map fun group => "S" ++ group.text)) =
      ['S'.toUInt8].intercalate ((core :: alternates).map fun group => bytesOf group.text) := by
  rw [bytesOf_append, bytesOf_join, List.flatMap_map]
  induction alternates generalizing core with
  | nil => simp
  | cons head tail ih =>
      have hjoined : bytesOf head.text ++
          List.flatMap (fun group => bytesOf ("S" ++ group.text)) tail =
            ['S'.toUInt8].intercalate ((head :: tail).map fun group => bytesOf group.text) :=
        ih head
      rw [List.flatMap_cons, bytesOf_append, List.append_assoc, hjoined]
      simp only [List.map_cons, List.intercalate_cons_cons, List.append_assoc]
      rfl

/-- The text of a trigger spells it without its empty alternates. -/
theorem spells_text {trigger : Trigger} (hread : trigger.IsRead)
    (hfloat : ∀ operand ∈ trigger.operands, operand.isFloatLiteral = false) :
    Trigger.Spells (bytesOf trigger.text) trigger.withoutEmpty := by
  obtain ⟨hconditions, hprimed, hmeasured⟩ := hread
  have hwhole : trigger.withoutEmpty =
      ofGroups (trigger.core :: trigger.alternates.filter (!·.isEmpty)) := by
    rw [withoutEmpty, hprimed, hmeasured]
    rfl
  have hgroups : ∀ group ∈ trigger.core :: trigger.alternates.filter (!·.isEmpty),
      Group.Spells (bytesOf group.text) group := by
    intro group hmem
    have hgroup : group ∈ trigger.groups := by
      rcases List.mem_cons.mp hmem with rfl | hkept
      · exact List.mem_cons_self
      · exact List.mem_cons_of_mem _ (List.mem_of_mem_filter hkept)
    apply Group.spells_text (hconditions group hgroup)
    intro condition hcondition operand hoperand
    apply hfloat
    simp only [operands, List.mem_flatMap]
    exact ⟨group, hgroup, condition, hcondition, hoperand⟩
  rw [hwhole, text, bytesOf_joinedGroups]
  exact .joined (joined_intercalate (by simp) hgroups)

end Trigger

/-! ## What is read from a text -/

theorem Operand.ensures_readFloatMemory (access : Access) (start : Nat) :
    Ensures (readFloatMemory access start) fun operand => operand.fresh = operand := by
  refine .of_next fun letter? => ?_
  split
  · exact .of_next fun _ => .of_next fun _ => .pure rfl
  · exact .fail _ _ _

theorem Operand.ensures_readMemory (access : Access) :
    Ensures (readMemory access) fun operand => operand.fresh = operand := by
  refine .of_next fun start => .of_next fun letter? => ?_
  split
  · exact .of_next fun _ => ensures_readFloatMemory access start
  · refine .of_next fun marked => ?_
    split
    · refine .of_next fun next? => ?_
      split
      · exact .of_next fun _ => .of_next fun _ => .pure rfl
      · exact .of_next fun _ => .pure rfl
    · exact .fail _ _ _

/-- An operand that is read has not read anything itself. -/
theorem Operand.ensures_read : Ensures read fun operand => operand.fresh = operand := by
  refine .of_next fun scan => ?_
  simp only
  split
  case h_1 | h_2 =>
    split
    · exact .of_next fun _ => ensures_readMemory _
    · exact .fail _ _ _
  case h_3 | h_4 | h_5 | h_6 | h_7 => exact .of_next fun _ => ensures_readMemory _
  case h_8 | h_9 =>
    refine .of_next fun _ => ?_
    split
    · exact ensures_readFloatMemory _ _
    · exact .of_next fun _ => .pure rfl
  case h_10 | h_11 => exact .of_next fun _ => .of_next fun _ => .of_next fun _ => .pure rfl
  case h_12 | h_13 => exact .of_next fun _ => .pure rfl
  case h_14 =>
    split
    · exact ensures_readMemory _
    · split
      · exact .of_next fun _ => .pure rfl
      · exact .fail _ _ _
  case h_15 => exact .fail _ _ _

theorem Condition.ensures_read : Ensures Condition.read Condition.IsRead := by
  refine .of_next fun role => Operand.ensures_read.bind fun source hsource => ?_
  refine .of_next fun place => .of_next fun comparison? => ?_
  cases comparison? with
  | some comparison =>
      refine Operand.ensures_read.bind fun target htarget => .of_next fun requiredHits => .pure ?_
      exact ⟨by simp [fresh, hsource, htarget], by simp⟩
  | none =>
      simp only
      split
      · refine .of_next fun requiredHits => .pure ?_
        refine ⟨?_, fun _ => ⟨‹_›, rfl⟩⟩
        simp only [fresh, hsource]
        rfl
      · exact .fail _ _ _

theorem Group.ensures_read :
    Ensures Group.read fun group => ∀ condition ∈ group.conditions, condition.IsRead := by
  refine .of_next fun letter? => ?_
  split
  case h_1 | h_2 | h_3 => exact .pure (by simp)
  case h_4 =>
    refine (Condition.ensures_read.separated '_').bind fun conditions hconditions => ?_
    exact .pure hconditions

theorem Trigger.ensures_read : Ensures Trigger.read Trigger.IsRead := by
  refine (Group.ensures_read.separated 'S').bind fun groups hgroups => .pure ?_
  cases groups with
  | nil => exact ⟨by simp [ofGroups, Trigger.groups], rfl, rfl⟩
  | cons core alternates => exact ⟨hgroups, rfl, rfl⟩

/-! ## The round trip -/

/-- What was read from a text and written again is read as the same trigger without its empty
alternates, and has the same text.  Decimal fractions are left out. -/
theorem Trigger.readAll_text {text : String} {trigger : Trigger}
    (hread : Trigger.read.readAll text = .ok trigger)
    (hfloat : ∀ operand ∈ trigger.operands, operand.isFloatLiteral = false) :
    Trigger.read.readAll trigger.text = .ok trigger.withoutEmpty ∧
      trigger.withoutEmpty.text = trigger.text := by
  have hisRead : trigger.IsRead := Trigger.ensures_read.readAll hread
  have hspells := Trigger.spells_text hisRead hfloat
  refine ⟨readAll_of_reads (hspells.reads ?_), trigger.text_withoutEmpty⟩
  intro byte hmem
  cases hmem

/-- A text with letters of either case, a repeated `0x`, a doubled sign and an empty alternate. -/
def looseText : String := "P:~0xh0010!=d0XL0x12_a:fF00010000SSM:p0x1234==+7(3)"

def looseTrigger : Trigger :=
  { core := ⟨[
      { role := .guard .pauseIf
        source := .memory { access := .inverted, size := .byte, address := 0x10 }
        comparison? := some .notEqual
        target := .memory { access := .delta, size := .lowNibble, address := 0x12 } },
      { role := .modifier .addSource
        source := .memory { access := .address, size := .float .single .little, address := 0x10000 }
        comparison? := none
        target := default }]⟩
    alternates := [⟨[]⟩, ⟨[
      { role := .check .measured
        source := .memory { access := .prior, size := .word .two .little, address := 0x1234 }
        comparison? := some .equal
        target := .word 7
        requiredHits := 3 }]⟩] }

theorem readAll_looseTrigger :
    Trigger.read.readAll looseTrigger.text = .ok looseTrigger.withoutEmpty ∧
      looseTrigger.withoutEmpty.text = looseTrigger.text := by
  have hread : Trigger.read.readAll looseText = .ok looseTrigger := rfl
  have hfloat : ∀ operand ∈ looseTrigger.operands, operand.isFloatLiteral = false := by decide
  exact Trigger.readAll_text hread hfloat

end AchievementLogic
