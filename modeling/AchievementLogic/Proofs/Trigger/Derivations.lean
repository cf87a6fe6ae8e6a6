import AchievementLogic.Proofs.Text.Consuming
import AchievementLogic.Proofs.Trigger.Printing

/-!
# What is read is spelled

The readers of definitions accept nothing but spellings: the bytes that are taken for a part of a
trigger spell that part.  A decimal fraction is an exception, so this is said of operands that are
none, and of conditions, groups and triggers without any.  Together with the readings of spellings
it gives the grammar both ways.
-/

namespace AchievementLogic

open Text Reader

variable {scan : Scan}

/-! ## Words and addresses -/

theorem SpellsWord.exists_of_readDigits {base : Nat} (hbase : 0 < base) {word : UInt32}
    {after : Scan} (hread : scan.readDigits base = some (word, after)) :
    ∃ bytes, scan.remaining = bytes ++ after.remaining ∧ SpellsWord base bytes word := by
  obtain ⟨bytes, digits, hbytes, hdigits, hsome, rfl⟩ :=
    Scan.exists_digits_of_readDigits hbase hread
  exact ⟨bytes, hbytes, .digits hdigits hsome⟩

theorem consumes_word {base : Nat} (hbase : 0 < base) (cause : ParseError.Cause) (start : Nat) :
    Consumes (Reader.require (·.readDigits base) cause start) scan (SpellsWord base) :=
  Consumes.require (fun _ _ hread => SpellsWord.exists_of_readDigits hbase hread) cause start

theorem isHexMark_of_hasHexMarkAt {zero letter : UInt8} {rest : List UInt8} {position : Nat}
    (hmark : Scan.hasHexMarkAt ⟨zero :: letter :: rest, position⟩ 0 = true) :
    IsHexMark [zero, letter] := by
  simp only [Scan.hasHexMarkAt, Scan.peekAt_zero, Scan.peekAt_succ_cons, Scan.peek_cons,
    Bool.and_eq_true, Bool.or_eq_true, decide_eq_true_eq, Option.some.injEq] at hmark
  obtain ⟨hzero, hlower | hupper⟩ := hmark
  · left
    rw [← toUInt8_ofUInt8 zero, hzero, ← toUInt8_ofUInt8 letter, hlower]
    rfl
  · right
    rw [← toUInt8_ofUInt8 zero, hzero, ← toUInt8_ofUInt8 letter, hupper]
    rfl

/-- The first two bytes are a `0x`, or nothing is taken. -/
theorem consumes_hexMark :
    Consumes (Reader.accepts Scan.acceptHexMark?) scan fun bytes found =>
      if found then IsHexMark bytes else bytes = [] := by
  refine Consumes.accepts (fun after hstep => ?_) rfl
  obtain ⟨remaining, position⟩ := scan
  unfold Scan.acceptHexMark? at hstep
  split at hstep
  · rename_i hmark
    cases hstep
    match remaining with
    | [] => cases hmark
    | [byte] => simp [Scan.hasHexMarkAt, Scan.peekAt] at hmark
    | zero :: letter :: rest => exact ⟨[zero, letter], rfl, isHexMark_of_hasHexMarkAt hmark⟩
  · cases hstep

theorem consumes_address (cause : ParseError.Cause) (start : Nat) :
    Consumes (do
      let _ ← Reader.accepts Scan.acceptHexMark?
      Reader.require Scan.readHex cause start) scan SpellsAddress := by
  refine consumes_hexMark.bind fun mark found after hmark => ?_
  cases found with
  | false =>
      obtain rfl : mark = [] := hmark
      exact (consumes_word (by decide) cause start).mono fun bytes word hword => .plain hword
  | true =>
      exact (consumes_word (by decide) cause start).mono fun bytes word hword => .marked hmark hword

/-! ## Places in memory -/

/-- The bytes spell a place, and the operand shows that place. -/
def SpellsMemory (access : Access) (bytes : List UInt8) (operand : Operand) : Prop :=
  ∃ size address, SpellsPlace bytes size address ∧ operand = .memory { access, size, address }

theorem consumes_memory (access : Access) (size : ReadSize) (start : Nat) :
    Consumes (do return Operand.memory { access, size, address := ← Operand.readAddress start })
      scan fun bytes operand => ∃ address, SpellsAddress bytes address ∧
        operand = .memory { access, size, address } :=
  (consumes_address .noAddress start).map fun _ address haddress => ⟨address, haddress, rfl⟩

theorem consumes_readFloatMemory {opening : UInt8}
    (hopening : Char.ofUInt8 opening = 'f' ∨ Char.ofUInt8 opening = 'F') (access : Access)
    (start : Nat) :
    Consumes (Operand.readFloatMemory access start) scan fun bytes =>
      SpellsMemory access (opening :: bytes) := by
  obtain ⟨remaining, position⟩ := scan
  refine Consumes.peek_bind ?_
  cases remaining with
  | nil => exact Consumes.fail _ _ _
  | cons letter rest =>
      cases hsize : ReadSize.ofFloatLetter? (Char.ofUInt8 letter) with
      | none =>
          rw [Scan.peek_cons, Option.bind_some, hsize]
          exact Consumes.fail _ _ _
      | some size =>
          rw [Scan.peek_cons, Option.bind_some, hsize]
          refine Consumes.skip_one ((consumes_memory access size start).mono ?_)
          rintro bytes operand ⟨address, haddress, rfl⟩
          exact ⟨size, address, .float hopening hsize haddress, rfl⟩

theorem isFloatLetter_iff {letter : Char} :
    Operand.isFloatLetter (some letter) = true ↔ letter = 'f' ∨ letter = 'F' := by
  simp [Operand.isFloatLetter]

/-- Behind the letter of an access either a `0x` or the letter of a float is taken, and then a place
of that kind. -/
theorem consumes_readMemory (access : Access) :
    Consumes (Operand.readMemory access) scan (SpellsMemory access) := by
  refine Consumes.position_bind (Consumes.peek_bind ?_)
  split
  · rename_i hletter
    obtain ⟨remaining, position⟩ := scan
    cases remaining with
    | nil => cases hletter
    | cons opening rest =>
        exact Consumes.skip_one (consumes_readFloatMemory (isFloatLetter_iff.mp hletter) access _)
  · refine consumes_hexMark.bind fun mark found after hmark => ?_
    cases found with
    | false => exact Consumes.fail _ _ _
    | true =>
        obtain ⟨remaining, position⟩ := after
        refine Consumes.peek_bind ?_
        cases hsize : (Scan.peek ⟨remaining, position⟩).bind ReadSize.ofLetter? with
        | none =>
            refine (consumes_memory access _ _).mono ?_
            rintro bytes operand ⟨address, haddress, rfl⟩
            exact ⟨_, address, .unsized hmark haddress, rfl⟩
        | some size =>
            cases remaining with
            | nil => cases hsize
            | cons letter rest =>
                refine Consumes.skip_one ((consumes_memory access size _).mono ?_)
                rintro bytes operand ⟨address, haddress, rfl⟩
                exact ⟨size, address, .sized hmark hsize haddress, rfl⟩

/-! ## Operands -/

/-- The bytes spell the operand, unless it is a decimal fraction. -/
def SpellsOperand (bytes : List UInt8) (operand : Operand) : Prop :=
  operand.isFloatLiteral = false → Operand.Spells bytes operand

theorem consumes_accessed {letter : UInt8} {rest : List UInt8} {position : Nat} {access : Access}
    (haccess : Access.ofLetter? (Char.ofUInt8 letter) = some access) :
    Consumes (do Reader.skip 1; Operand.readMemory access) ⟨letter :: rest, position⟩
      SpellsOperand := by
  refine Consumes.skip_one ((consumes_readMemory access).mono ?_)
  rintro bytes operand ⟨size, address, hplace, rfl⟩ -
  exact .accessed haccess hplace

theorem skip_suffix (scan : Scan) (count : Nat) :
    (scan.skip count).remaining <:+ scan.remaining := List.drop_suffix count scan.remaining

/-- What is left after a fraction is an end of what was there before it. -/
theorem readFloat_suffix {after : Scan} {number : Float}
    (hread : scan.readFloat = some (number, after)) : after.remaining <:+ scan.remaining := by
  simp only [Scan.readFloat] at hread
  generalize hunsigned : (if (decide (scan.peek = some '-') || decide (scan.peek = some '+')) = true
    then scan.skip 1 else scan) = unsigned at hread
  have hsign : unsigned.remaining <:+ scan.remaining := by
    rw [← hunsigned]
    split
    · exact skip_suffix scan 1
    · exact List.suffix_rfl
  have hwhole := (skip_suffix unsigned (unsigned.digitRun 10).length).trans hsign
  generalize unsigned.skip (unsigned.digitRun 10).length = afterWhole at hread hwhole
  generalize (if afterWhole.peek = some '.' then (afterWhole.skip 1).digitRun 10 else []) =
    fraction at hread
  by_cases hfraction : fraction.isEmpty
  · rw [if_pos hfraction, Option.ite_none_left_eq_some] at hread
    rw [← (Prod.mk.inj (Option.some.inj hread.2)).2]
    exact hwhole
  · rw [if_neg hfraction] at hread
    rw [← (Prod.mk.inj (Option.some.inj hread)).2]
    exact (skip_suffix _ _).trans hwhole

/-- A fraction is no operand of the grammar, whatever bytes it takes. -/
theorem consumes_fraction (start : Nat) :
    Consumes (do return Operand.float (← Reader.require Scan.readFloat .noFloatNumber start)) scan
      fun _ operand => operand.isFloatLiteral = true := by
  have hfront : Consumes (Reader.require Scan.readFloat .noFloatNumber start) scan
      fun _ _ => True := by
    refine Consumes.require (fun number after hread => ?_) _ _
    obtain ⟨bytes, hbytes⟩ := readFloat_suffix hread
    exact ⟨bytes, hbytes.symm, True.intro⟩
  exact hfront.map fun _ _ _ => rfl

theorem consumes_hexWord {letter : UInt8} {rest : List UInt8} {position : Nat}
    (hletter : Char.ofUInt8 letter = 'h' ∨ Char.ofUInt8 letter = 'H') (start : Nat) :
    Consumes (do
      Reader.skip 1
      let _ ← Reader.accepts Scan.acceptHexMark?
      return Operand.word (← Reader.require Scan.readHex .noHexNumber start))
      ⟨letter :: rest, position⟩ SpellsOperand := by
  refine Consumes.skip_one ?_
  rw [← bind_assoc]
  exact (consumes_address .noHexNumber start).map fun bytes word haddress _ => .hex hletter haddress

theorem consumes_floatOperand {letter : UInt8} {rest : List UInt8} {position : Nat}
    (hletter : Char.ofUInt8 letter = 'f' ∨ Char.ofUInt8 letter = 'F') (start : Nat)
    (sized : Bool) :
    Consumes (do
      Reader.skip 1
      if sized then Operand.readFloatMemory .address start
      else return Operand.float (← Reader.require Scan.readFloat .noFloatNumber start))
      ⟨letter :: rest, position⟩ SpellsOperand := by
  refine Consumes.skip_one ?_
  cases sized with
  | true =>
      refine (consumes_readFloatMemory hletter .address start).mono ?_
      rintro bytes operand ⟨size, address, hplace, rfl⟩ -
      exact .address hplace
  | false =>
      refine (consumes_fraction start).mono fun bytes operand hfraction hliteral => ?_
      rw [hfraction] at hliteral
      cases hliteral

theorem consumes_signed {sign : UInt8} {rest : List UInt8} {position : Nat}
    (hsign : Char.ofUInt8 sign = '-' ∨ Char.ofUInt8 sign = '+') (start : Nat) :
    Consumes (do return Operand.word (← Reader.require Scan.readSigned .noNumber start))
      ⟨sign :: rest, position⟩ SpellsOperand := by
  have hnumber : Consumes (Reader.require Scan.readSigned .noNumber start) ⟨sign :: rest, position⟩
      fun bytes word => Operand.Spells bytes (.word word) := by
    refine Consumes.require (fun word after hread => ?_) _ _
    rcases hsign with hsign | hsign
    · simp only [Scan.readSigned, Scan.peek_cons, hsign, Option.map_eq_some_iff] at hread
      obtain ⟨⟨size, between⟩, hsize, heq⟩ := hread
      cases heq
      obtain ⟨bytes, hbytes, hspells⟩ := SpellsWord.exists_of_readDigits (by decide) hsize
      refine ⟨sign :: bytes, congrArg (sign :: ·) hbytes, ?_⟩
      rw [← toUInt8_ofUInt8 sign, hsign]
      exact .minus hspells
    · simp only [Scan.readSigned, Scan.peek_cons, hsign] at hread
      obtain ⟨bytes, hbytes, hspells⟩ := SpellsWord.exists_of_readDigits (by decide) hread
      refine ⟨sign :: bytes, congrArg (sign :: ·) hbytes, ?_⟩
      rw [← toUInt8_ofUInt8 sign, hsign]
      exact .plus hspells
  exact hnumber.map fun bytes word hspells _ => hspells

theorem consumes_plain (start : Nat) :
    Consumes (do return Operand.word (← Reader.require Scan.readUnsigned .noNumber start)) scan
      SpellsOperand :=
  (consumes_word (by decide) .noNumber start).map fun _ _ hword _ => .plain hword

/-- What an operand takes spells it: its first letter says by which rule. -/
theorem consumes_read : Consumes Operand.read scan SpellsOperand := by
  obtain ⟨remaining, position⟩ := scan
  refine Consumes.get_bind ?_
  cases remaining with
  | nil => exact Consumes.fail _ _ _
  | cons letter rest =>
      simp only [Scan.peek_cons]
      split
      case h_1 hletter | h_2 hletter =>
        split
        · exact consumes_accessed (by rw [Option.some.inj hletter]; rfl)
        · exact Consumes.fail _ _ _
      case h_3 hletter | h_4 hletter | h_5 hletter | h_6 hletter | h_7 hletter =>
        exact consumes_accessed (by rw [Option.some.inj hletter]; rfl)
      case h_8 hletter | h_9 hletter =>
        exact consumes_floatOperand (by simp [Option.some.inj hletter]) position _
      case h_10 hletter | h_11 hletter =>
        exact consumes_hexWord (by simp [Option.some.inj hletter]) position
      case h_12 hletter | h_13 hletter =>
        exact consumes_signed (by simp [Option.some.inj hletter]) position
      case h_14 =>
        split
        · refine (consumes_readMemory .address).mono ?_
          rintro bytes operand ⟨size, address, hplace, rfl⟩ -
          exact .address hplace
        · split
          · exact consumes_plain position
          · exact Consumes.fail _ _ _
      case h_15 hletter => cases hletter

/-! ## Roles, comparisons and hit targets -/

theorem consumes_role : Consumes Role.read scan Role.Spells := by
  refine Consumes.get_bind ?_
  split
  · rename_i letter hletter hcolon
    obtain ⟨remaining, position⟩ := scan
    match remaining with
    | [] => cases hletter
    | [byte] => cases hcolon
    | byte :: colon :: rest =>
        obtain rfl : Char.ofUInt8 byte = letter := Option.some.inj hletter
        have hmark : colon = ':'.toUInt8 := by
          rw [← toUInt8_ofUInt8 colon, Option.some.inj hcolon]
        rw [hmark]
        split
        · rename_i role hrole
          refine Consumes.skip [byte, ':'.toUInt8] rest position |>.map ?_
          rintro bytes ⟨⟩ rfl
          exact .letter hrole
        · exact Consumes.fail _ _ _
  · exact Consumes.pure .standard

/-- The bytes spell the comparison, if there is one; else there are none. -/
def SpellsComparison (bytes : List UInt8) : Option Comparison → Prop
  | some comparison => Comparison.Spells bytes comparison
  | none => bytes = []

/-- A comparison has one sign, or two of which the second one is `=`. -/
theorem Comparison.spells_of_ofMarks? {first : Char} {next? : Option Char}
    {comparison : Comparison} {length : Nat}
    (hmarks : ofMarks? (some first) next? = some (comparison, length)) :
    (length = 1 ∧ Comparison.Spells [first.toUInt8] comparison) ∨
      (length = 2 ∧ next? = some '=' ∧
        Comparison.Spells [first.toUInt8, '='.toUInt8] comparison) := by
  unfold ofMarks? at hmarks
  split at hmarks
  case h_8 => cases hmarks
  all_goals
    cases ‹some first = _›
    cases hmarks
  · exact .inr ⟨rfl, rfl, .twice⟩
  · exact .inl ⟨rfl, .mark .equal⟩
  · exact .inr ⟨rfl, rfl, .mark .notEqual⟩
  · exact .inr ⟨rfl, rfl, .mark .lessOrEqual⟩
  · exact .inl ⟨rfl, .mark .less⟩
  · exact .inr ⟨rfl, rfl, .mark .greaterOrEqual⟩
  · exact .inl ⟨rfl, .mark .greater⟩

theorem consumes_comparison : Consumes Comparison.read? scan SpellsComparison := by
  refine Consumes.get_bind ?_
  obtain ⟨remaining, position⟩ := scan
  split
  · rename_i comparison length hmarks
    cases remaining with
    | nil => cases hmarks
    | cons first rest =>
        rw [Scan.peek_cons, Scan.peekAt_succ_cons] at hmarks
        rcases Comparison.spells_of_ofMarks? hmarks with ⟨rfl, hsign⟩ | ⟨rfl, hnext, hsign⟩
        · rw [toUInt8_ofUInt8] at hsign
          refine (Consumes.skip [first] rest position).map ?_
          rintro bytes ⟨⟩ rfl
          exact hsign
        · cases rest with
          | nil => cases hnext
          | cons second rest =>
              rw [← Option.some.inj hnext, toUInt8_ofUInt8, toUInt8_ofUInt8] at hsign
              refine (Consumes.skip [first, second] rest position).map ?_
              rintro bytes ⟨⟩ rfl
              exact hsign
  · exact Consumes.pure rfl

theorem consumes_readUpTo {opening : UInt8} {rest : List UInt8} {position : Nat} (start : Nat)
    (close : Char) :
    Consumes (Condition.readHits.readUpTo start close) ⟨opening :: rest, position⟩
      fun bytes hits => ∃ digits, SpellsWord 10 digits hits ∧
        bytes = opening :: (digits ++ [close.toUInt8]) := by
  refine Consumes.skip_one ((consumes_word (by decide) .noHitCount start).bind ?_)
  intro digits hits after hword
  refine (Consumes.accept close).bind fun mark found later hmark => ?_
  subst hmark
  cases found with
  | false => exact Consumes.position_bind (Consumes.fail _ _ _)
  | true => exact Consumes.pure ⟨digits, hword, by simp⟩

theorem consumes_readHits : Consumes Condition.readHits scan SpellsHits := by
  refine Consumes.position_bind (Consumes.peek_bind ?_)
  obtain ⟨remaining, position⟩ := scan
  cases remaining with
  | nil => exact Consumes.pure .none
  | cons opening rest =>
      simp only [Scan.peek_cons]
      split
      · rename_i hopening
        refine (consumes_readUpTo _ _).mono ?_
        rintro bytes hits ⟨digits, hword, rfl⟩
        rw [← toUInt8_ofUInt8 opening, Option.some.inj hopening]
        exact .round hword
      · rename_i hopening
        refine (consumes_readUpTo _ _).mono ?_
        rintro bytes hits ⟨digits, hword, rfl⟩
        rw [← toUInt8_ofUInt8 opening, Option.some.inj hopening]
        exact .dotted hword
      · exact Consumes.pure .none

/-! ## Conditions, groups and triggers -/

/-- The bytes spell the condition, unless there is a decimal fraction in it. -/
def SpellsCondition (bytes : List UInt8) (condition : Condition) : Prop :=
  (∀ operand ∈ condition.operands, operand.isFloatLiteral = false) →
    Condition.Spells bytes condition

/-- What a condition takes spells it, part by part; without a comparison its role has to be that of
a modifier. -/
theorem consumes_condition : Consumes Condition.read scan SpellsCondition := by
  refine consumes_role.bind fun mark role afterRole hrole => ?_
  refine consumes_read.bind fun left source afterSource hsource => Consumes.position_bind ?_
  refine consumes_comparison.bind fun sign comparison? afterSign hsign => ?_
  cases comparison? with
  | some comparison =>
      refine consumes_read.bind fun right target afterTarget htarget => ?_
      refine consumes_readHits.map fun count requiredHits hhits hfractions => ?_
      have hleft := hsource (hfractions source (by simp [Condition.operands]))
      have hright := htarget (hfractions target (by simp [Condition.operands]))
      exact .compared hrole hleft hsign hright hhits
  | none =>
      obtain rfl : sign = [] := hsign
      simp only
      split
      · rename_i hmodifier
        refine consumes_readHits.map fun count requiredHits hhits hfractions => ?_
        have hleft := hsource (hfractions source (by simp [Condition.operands]))
        exact .alone hrole hmodifier hleft hhits
      · exact Consumes.fail _ _ _

theorem Text.Joined.imp {Value : Type} {spells others : List UInt8 → Value → Prop}
    {separator : UInt8} {bytes : List UInt8} {values : List Value}
    (hjoined : Joined spells separator bytes values)
    (hspells : ∀ value ∈ values, ∀ bytes, spells bytes value → others bytes value) :
    Joined others separator bytes values := by
  induction hjoined with
  | single hvalue => exact .single (hspells _ (by simp) _ hvalue)
  | cons hvalue hlater ih =>
      refine .cons (hspells _ (by simp) _ hvalue) (ih fun value hmem => ?_)
      exact hspells value (List.mem_cons_of_mem _ hmem)

/-- The bytes spell the group, unless there is a decimal fraction in it. -/
def SpellsGroup (bytes : List UInt8) (group : Group) : Prop :=
  (∀ condition ∈ group.conditions, ∀ operand ∈ condition.operands,
    operand.isFloatLiteral = false) → Group.Spells bytes group

theorem consumes_group : Consumes Group.read scan SpellsGroup := by
  refine Consumes.peek_bind ?_
  split
  case h_1 | h_2 | h_3 => exact Consumes.pure fun _ => .empty
  case h_4 =>
    refine (Consumes.separated fun _ => consumes_condition).map fun bytes conditions hjoined => ?_
    intro hfractions
    exact .joined (hjoined.imp fun condition hmem bytes hspells =>
      hspells (hfractions condition hmem))

theorem Trigger.groups_ofGroups {groups : List Group} (hsome : 0 < groups.length) :
    (ofGroups groups).groups = groups := by
  cases groups with
  | nil => cases hsome
  | cons core alternates => rfl

/-- What a trigger is read from spells it, unless there is a decimal fraction in it. -/
theorem consumes_trigger :
    Consumes Trigger.read scan fun bytes trigger =>
      (∀ operand ∈ trigger.operands, operand.isFloatLiteral = false) →
        Trigger.Spells bytes trigger := by
  refine (Consumes.separated fun _ => consumes_group).map fun bytes groups hjoined hfractions => ?_
  have hgroups := Trigger.groups_ofGroups hjoined.length_pos
  refine .joined (hjoined.imp fun group hgroup bytes hspells => hspells ?_)
  intro condition hcondition operand hoperand
  apply hfractions
  simp only [Trigger.operands, hgroups, List.mem_flatMap]
  exact ⟨group, hgroup, condition, hcondition, hoperand⟩

end AchievementLogic
