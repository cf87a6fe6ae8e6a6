import AchievementLogic.Proofs.Runs
import AchievementLogic.Proofs.Trigger.Derivations

/-!
# The language of definitions

The texts that define a trigger form a regular language, written down here letter by letter.  Its
words are the spellings of triggers, and a text is accepted with the trigger that it spells and with
no other one.  Decimal fractions are left out on both sides.
-/

namespace AchievementLogic

open Text
open scoped Computability

namespace DefinitionLanguage

/-! ## The grammar -/

/-- One of these letters. -/
def oneOf (letters : String) : Language UInt8 :=
  {bytes | ∃ letter ∈ bytesOf letters, bytes = [letter]}

/-- This very text. -/
def word (text : String) : Language UInt8 := {bytesOf text}

/-- One item or several ones. -/
def several (item : Language UInt8) : Language UInt8 := item * item∗

/-- One item or several ones, with a separator between two of them. -/
def separated (item : Language UInt8) (separator : String) : Language UInt8 :=
  item * (word separator * item)∗

def hexMark : Language UInt8 := word "0x" + word "0X"

def decimal : Language UInt8 := several (oneOf "0123456789")

def hexadecimal : Language UInt8 := several (oneOf "0123456789abcdefABCDEF")

def address : Language UInt8 := (1 + hexMark) * hexadecimal

def size : Language UInt8 := oneOf " MNOPQRSTLUHWXIJGKmnopqrstluhwxijgk"

def place : Language UInt8 :=
  hexMark * (1 + size) * address + oneOf "fF" * oneOf "FBHIMLfbhiml" * address

def operand : Language UInt8 :=
  place + oneOf "dDpPbB~" * place + oneOf "hH" * address + oneOf "+-" * decimal + decimal

def comparison : Language UInt8 :=
  word "=" + word "==" + word "!=" + word "<" + word "<=" + word ">" + word ">="

def hits : Language UInt8 := word "(" * decimal * word ")" + word "." * decimal * word "."

def role : Language UInt8 := oneOf "PRABICDNOZTMGQprabicdnoztmgq" * word ":"

/-- The roles that do without a comparison. -/
def modifier : Language UInt8 := oneOf "ABIabi" * word ":"

def condition : Language UInt8 :=
  (1 + role) * operand * comparison * operand * (1 + hits) + modifier * operand * (1 + hits)

def group : Language UInt8 := 1 + separated condition "_"

def trigger : Language UInt8 := separated group "S"

/-! ## Membership -/

variable {bytes : List UInt8}

theorem singleton_mem_oneOf {letters : String} {letter : UInt8}
    (hletter : letter ∈ bytesOf letters) : [letter] ∈ oneOf letters := ⟨letter, hletter, rfl⟩

theorem mem_word {text : String} : bytes ∈ word text ↔ bytes = bytesOf text := Iff.rfl

theorem mem_optional {item : Language UInt8} : bytes ∈ 1 + item ↔ bytes = [] ∨ bytes ∈ item := by
  rw [Language.mem_add, Language.mem_one]

theorem mem_kstar_oneOf {letters : String} :
    bytes ∈ (oneOf letters)∗ ↔ ∀ byte ∈ bytes, byte ∈ bytesOf letters := by
  constructor
  · rintro ⟨items, rfl, hitems⟩ byte hbyte
    obtain ⟨item, hitem, hbyte⟩ := List.mem_flatten.mp hbyte
    obtain ⟨letter, hletter, rfl⟩ := hitems item hitem
    rwa [List.mem_singleton.mp hbyte]
  · intro hall
    induction bytes with
    | nil => exact Language.nil_mem_kstar _
    | cons first others ih =>
        have hothers := ih fun byte hbyte => hall byte (List.mem_cons_of_mem first hbyte)
        exact append_mem_kstar (singleton_mem_oneOf (hall first List.mem_cons_self)) hothers

theorem mem_several_oneOf {letters : String} :
    bytes ∈ several (oneOf letters) ↔ bytes ≠ [] ∧ ∀ byte ∈ bytes, byte ∈ bytesOf letters := by
  constructor
  · intro hmem
    obtain ⟨first, ⟨letter, hletter, rfl⟩, later, hlater, rfl⟩ := Language.mem_mul.mp hmem
    have hothers := mem_kstar_oneOf.mp hlater
    exact ⟨by simp, List.forall_mem_cons.mpr ⟨hletter, hothers⟩⟩
  · rintro ⟨hsome, hall⟩
    obtain ⟨first, others, rfl⟩ := List.exists_cons_of_ne_nil hsome
    obtain ⟨hfirst, hothers⟩ := List.forall_mem_cons.mp hall
    exact Language.append_mem_mul (singleton_mem_oneOf hfirst) (mem_kstar_oneOf.mpr hothers)

/-- Items with a separator between two of them, where every item spells something. -/
theorem mem_separated {Value : Type} {spells : List UInt8 → Value → Prop}
    {item : Language UInt8} {separator : String} {mark : UInt8}
    (hmark : bytesOf separator = [mark])
    (hitem : ∀ bytes, bytes ∈ item ↔ ∃ value, spells bytes value) :
    bytes ∈ separated item separator ↔ ∃ values, Joined spells mark bytes values := by
  constructor
  · intro hmem
    obtain ⟨first, hfirst, later, ⟨items, rfl, hitems⟩, rfl⟩ := Language.mem_mul.mp hmem
    clear hmem
    induction items generalizing first with
    | nil =>
        obtain ⟨value, hvalue⟩ := (hitem first).mp hfirst
        exact ⟨[value], by simpa using Joined.single hvalue⟩
    | cons head tail ih =>
        obtain ⟨value, hvalue⟩ := (hitem first).mp hfirst
        obtain ⟨sign, rfl, second, hsecond, rfl⟩ := Language.mem_mul.mp (hitems head (by simp))
        obtain ⟨values, hvalues⟩ := ih second hsecond fun item hmem => hitems item (by simp [hmem])
        refine ⟨value :: values, ?_⟩
        rw [List.flatten_cons, hmark]
        exact .cons hvalue hvalues
  · rintro ⟨values, hjoined⟩
    induction hjoined with
    | @single bytes value hvalue =>
        rw [← List.append_nil bytes]
        exact Language.append_mem_mul ((hitem bytes).mpr ⟨value, hvalue⟩) (Language.nil_mem_kstar _)
    | @cons bytes others value values hvalue hothers ih =>
        obtain ⟨second, hsecond, later, hlater, rfl⟩ := Language.mem_mul.mp ih
        have hsign : [mark] ∈ word separator := hmark.symm
        have hnext : mark :: second ∈ word separator * item :=
          Language.append_mem_mul hsign hsecond
        exact Language.append_mem_mul ((hitem bytes).mpr ⟨value, hvalue⟩)
          (append_mem_kstar hnext hlater)

/-! ## Its words are the spellings -/

theorem exists_areDigits {base : Nat}
    (hall : ∀ byte ∈ bytes, (digitValue? base (Char.ofUInt8 byte)).isSome = true) :
    ∃ digits, AreDigits base bytes digits := by
  induction bytes with
  | nil => exact ⟨[], rfl⟩
  | cons byte others ih =>
      obtain ⟨hbyte, hothers⟩ := List.forall_mem_cons.mp hall
      obtain ⟨digit, hdigit⟩ := Option.isSome_iff_exists.mp hbyte
      obtain ⟨digits, hdigits⟩ := ih hothers
      exact ⟨digit :: digits, congrArg₂ List.cons hdigit hdigits⟩

/-- Any digits spell a word, since a number that is too large is held at the largest one. -/
theorem mem_digits {letters : String} {base : Nat}
    (hletters : ∀ byte, byte ∈ bytesOf letters ↔
      (digitValue? base (Char.ofUInt8 byte)).isSome = true) :
    bytes ∈ several (oneOf letters) ↔ ∃ value, SpellsWord base bytes value := by
  rw [mem_several_oneOf]
  constructor
  · rintro ⟨hsome, hall⟩
    have hvalues := fun byte hmem => (hletters byte).mp (hall byte hmem)
    obtain ⟨digits, hdigits⟩ := exists_areDigits hvalues
    exact ⟨_, .digits hdigits hsome⟩
  · rintro ⟨value, hvalue⟩
    obtain ⟨first, others, rfl, hall⟩ := hvalue.exists_cons
    exact ⟨by simp, fun byte hmem => (hletters byte).mpr (hall byte hmem)⟩

/-- The grammar has the letters that the readers know. -/
@[mk_iff]
structure AgreesOn (byte : UInt8) : Prop where
  decimal : byte ∈ bytesOf "0123456789" ↔ (digitValue? 10 (Char.ofUInt8 byte)).isSome = true
  hexadecimal : byte ∈ bytesOf "0123456789abcdefABCDEF" ↔
    (digitValue? 16 (Char.ofUInt8 byte)).isSome = true
  size : byte ∈ bytesOf " MNOPQRSTLUHWXIJGKmnopqrstluhwxijgk" ↔
    (ReadSize.ofLetter? (Char.ofUInt8 byte)).isSome = true
  floatSize : byte ∈ bytesOf "FBHIMLfbhiml" ↔
    (ReadSize.ofFloatLetter? (Char.ofUInt8 byte)).isSome = true
  float : byte ∈ bytesOf "fF" ↔ Char.ofUInt8 byte = 'f' ∨ Char.ofUInt8 byte = 'F'
  hex : byte ∈ bytesOf "hH" ↔ Char.ofUInt8 byte = 'h' ∨ Char.ofUInt8 byte = 'H'
  sign : byte ∈ bytesOf "+-" ↔ byte = '+'.toUInt8 ∨ byte = '-'.toUInt8
  access : byte ∈ bytesOf "dDpPbB~" ↔ (Access.ofLetter? (Char.ofUInt8 byte)).isSome = true
  role : byte ∈ bytesOf "PRABICDNOZTMGQprabicdnoztmgq" ↔
    (Role.ofLetter? (Char.ofUInt8 byte)).isSome = true
  modifier : byte ∈ bytesOf "ABIabi" ↔
    (Role.ofLetter? (Char.ofUInt8 byte)).any Role.isModifier = true

theorem agreesOn (byte : UInt8) : AgreesOn byte := by
  rw [agreesOn_iff]
  revert byte
  exact forall_byte (by decide +kernel)

theorem mem_decimal : bytes ∈ decimal ↔ ∃ value, SpellsWord 10 bytes value :=
  mem_digits fun byte => (agreesOn byte).decimal

theorem mem_hexadecimal : bytes ∈ hexadecimal ↔ ∃ value, SpellsWord 16 bytes value :=
  mem_digits fun byte => (agreesOn byte).hexadecimal

theorem mem_hexMark : bytes ∈ hexMark ↔ IsHexMark bytes := Iff.rfl

theorem mem_address : bytes ∈ address ↔ ∃ value, SpellsAddress bytes value := by
  constructor
  · intro hmem
    obtain ⟨mark, hmark, digits, hdigits, rfl⟩ := Language.mem_mul.mp hmem
    obtain ⟨value, hvalue⟩ := mem_hexadecimal.mp hdigits
    rcases mem_optional.mp hmark with rfl | hmark
    · exact ⟨value, .plain hvalue⟩
    · exact ⟨value, .marked hmark hvalue⟩
  · rintro ⟨value, hvalue⟩
    cases hvalue with
    | plain hword =>
        have hnone : [] ∈ 1 + hexMark := mem_optional.mpr (.inl rfl)
        exact Language.append_mem_mul hnone (mem_hexadecimal.mpr ⟨value, hword⟩)
    | @marked mark bytes _ hmark hword =>
        have hsome : mark ∈ 1 + hexMark := mem_optional.mpr (.inr hmark)
        exact Language.append_mem_mul hsome (mem_hexadecimal.mpr ⟨value, hword⟩)

theorem mem_place : bytes ∈ place ↔ ∃ size value, SpellsPlace bytes size value := by
  rw [place, Language.mem_add]
  constructor
  · rintro (hplace | hfloat)
    · obtain ⟨front, hfront, digits, hdigits, rfl⟩ := Language.mem_mul.mp hplace
      obtain ⟨mark, hmark, letters, hletters, rfl⟩ := Language.mem_mul.mp hfront
      obtain ⟨value, hvalue⟩ := mem_address.mp hdigits
      rw [List.append_assoc]
      rcases mem_optional.mp hletters with rfl | ⟨letter, hletter, rfl⟩
      · exact ⟨_, value, .unsized hmark hvalue⟩
      · obtain ⟨size, hsize⟩ := Option.isSome_iff_exists.mp ((agreesOn letter).size.mp hletter)
        exact ⟨size, value, .sized hmark hsize hvalue⟩
    · obtain ⟨front, hfront, digits, hdigits, rfl⟩ := Language.mem_mul.mp hfloat
      obtain ⟨_, ⟨opening, hopening, rfl⟩, _, ⟨letter, hletter, rfl⟩, rfl⟩ :=
        Language.mem_mul.mp hfront
      obtain ⟨value, hvalue⟩ := mem_address.mp hdigits
      obtain ⟨size, hsize⟩ := Option.isSome_iff_exists.mp ((agreesOn letter).floatSize.mp hletter)
      exact ⟨size, value, .float ((agreesOn opening).float.mp hopening) hsize hvalue⟩
  · rintro ⟨size, value, hplace⟩
    cases hplace with
    | @sized mark digits letter _ _ hmark hsize haddress =>
        have hletter := (agreesOn letter).size.mpr (Option.isSome_of_eq_some hsize)
        have hsome : [letter] ∈ 1 + DefinitionLanguage.size :=
          mem_optional.mpr (.inr (singleton_mem_oneOf hletter))
        have hfront := Language.append_mem_mul (mem_hexMark.mpr hmark) hsome
        have hwhole := Language.append_mem_mul hfront (mem_address.mpr ⟨value, haddress⟩)
        rw [List.append_assoc] at hwhole
        exact .inl hwhole
    | @unsized mark digits _ hmark haddress =>
        have hnone : [] ∈ 1 + DefinitionLanguage.size := mem_optional.mpr (.inl rfl)
        have hfront := Language.append_mem_mul (mem_hexMark.mpr hmark) hnone
        rw [List.append_nil] at hfront
        exact .inl (Language.append_mem_mul hfront (mem_address.mpr ⟨value, haddress⟩))
    | @float opening letter digits _ _ hopening hsize haddress =>
        have hfirst := singleton_mem_oneOf ((agreesOn opening).float.mpr hopening)
        have hsecond := singleton_mem_oneOf
          ((agreesOn letter).floatSize.mpr (Option.isSome_of_eq_some hsize))
        have hfront := Language.append_mem_mul hfirst hsecond
        exact .inr (Language.append_mem_mul hfront (mem_address.mpr ⟨value, haddress⟩))

/-- The words for operands are what spells an operand, one rule of the grammar for each way to spell
it. -/
theorem mem_operand : bytes ∈ operand ↔ ∃ value, Operand.Spells bytes value := by
  simp only [operand, Language.mem_add]
  constructor
  · rintro ((((hplace | haccessed) | hhex) | hsigned) | hplain)
    · obtain ⟨size, value, hvalue⟩ := mem_place.mp hplace
      exact ⟨_, .address hvalue⟩
    · obtain ⟨_, ⟨letter, hletter, rfl⟩, digits, hdigits, rfl⟩ := Language.mem_mul.mp haccessed
      obtain ⟨access, haccess⟩ := Option.isSome_iff_exists.mp ((agreesOn letter).access.mp hletter)
      obtain ⟨size, value, hvalue⟩ := mem_place.mp hdigits
      exact ⟨_, .accessed haccess hvalue⟩
    · obtain ⟨_, ⟨letter, hletter, rfl⟩, digits, hdigits, rfl⟩ := Language.mem_mul.mp hhex
      obtain ⟨value, hvalue⟩ := mem_address.mp hdigits
      exact ⟨_, .hex ((agreesOn letter).hex.mp hletter) hvalue⟩
    · obtain ⟨_, ⟨sign, hsign, rfl⟩, digits, hdigits, rfl⟩ := Language.mem_mul.mp hsigned
      obtain ⟨value, hvalue⟩ := mem_decimal.mp hdigits
      rcases (agreesOn sign).sign.mp hsign with rfl | rfl
      · exact ⟨_, .plus hvalue⟩
      · exact ⟨_, .minus hvalue⟩
    · obtain ⟨value, hvalue⟩ := mem_decimal.mp hplain
      exact ⟨_, .plain hvalue⟩
  · rintro ⟨value, hvalue⟩
    cases hvalue with
    | address hplace => exact .inl (.inl (.inl (.inl (mem_place.mpr ⟨_, _, hplace⟩))))
    | @accessed letter digits _ _ _ haccess hplace =>
        have hletter := singleton_mem_oneOf
          ((agreesOn letter).access.mpr (Option.isSome_of_eq_some haccess))
        have hwhole := Language.append_mem_mul hletter (mem_place.mpr ⟨_, _, hplace⟩)
        exact .inl (.inl (.inl (.inr hwhole)))
    | @hex letter digits _ hletter haddress =>
        have hfirst := singleton_mem_oneOf ((agreesOn letter).hex.mpr hletter)
        have hwhole := Language.append_mem_mul hfirst (mem_address.mpr ⟨_, haddress⟩)
        exact .inl (.inl (.inr hwhole))
    | plain hword => exact .inr (mem_decimal.mpr ⟨_, hword⟩)
    | plus hword =>
        have hsign : ['+'.toUInt8] ∈ oneOf "+-" := singleton_mem_oneOf (by decide)
        have hwhole := Language.append_mem_mul hsign (mem_decimal.mpr ⟨_, hword⟩)
        exact .inl (.inr hwhole)
    | minus hword =>
        have hsign : ['-'.toUInt8] ∈ oneOf "+-" := singleton_mem_oneOf (by decide)
        have hwhole := Language.append_mem_mul hsign (mem_decimal.mpr ⟨_, hword⟩)
        exact .inl (.inr hwhole)

theorem mem_comparison : bytes ∈ comparison ↔ ∃ value, Comparison.Spells bytes value := by
  simp only [comparison, Language.mem_add, mem_word]
  constructor
  · rintro ((((((rfl | rfl) | rfl) | rfl) | rfl) | rfl) | rfl)
    · exact ⟨.equal, .mark .equal⟩
    · exact ⟨.equal, .twice⟩
    · exact ⟨.notEqual, .mark .notEqual⟩
    · exact ⟨.less, .mark .less⟩
    · exact ⟨.lessOrEqual, .mark .lessOrEqual⟩
    · exact ⟨.greater, .mark .greater⟩
    · exact ⟨.greaterOrEqual, .mark .greaterOrEqual⟩
  · rintro ⟨value, hvalue⟩
    cases hvalue with
    | mark => cases value <;> simp [Comparison.mark]
    | twice => simp

theorem mem_hits : bytes ∈ 1 + hits ↔ ∃ value, SpellsHits bytes value := by
  rw [mem_optional, hits, Language.mem_add]
  constructor
  · rintro (rfl | hround | hdotted)
    · exact ⟨0, .none⟩
    · obtain ⟨front, hfront, _, rfl, rfl⟩ := Language.mem_mul.mp hround
      obtain ⟨_, rfl, digits, hdigits, rfl⟩ := Language.mem_mul.mp hfront
      obtain ⟨value, hvalue⟩ := mem_decimal.mp hdigits
      exact ⟨value, .round hvalue⟩
    · obtain ⟨front, hfront, _, rfl, rfl⟩ := Language.mem_mul.mp hdotted
      obtain ⟨_, rfl, digits, hdigits, rfl⟩ := Language.mem_mul.mp hfront
      obtain ⟨value, hvalue⟩ := mem_decimal.mp hdigits
      exact ⟨value, .dotted hvalue⟩
  · have hword (text : String) : bytesOf text ∈ word text := rfl
    rintro ⟨value, hvalue⟩
    cases hvalue with
    | none => exact .inl rfl
    | round hdigits =>
        have hfront := Language.append_mem_mul (hword "(") (mem_decimal.mpr ⟨_, hdigits⟩)
        exact .inr (.inl (Language.append_mem_mul hfront (hword ")")))
    | dotted hdigits =>
        have hfront := Language.append_mem_mul (hword ".") (mem_decimal.mpr ⟨_, hdigits⟩)
        exact .inr (.inr (Language.append_mem_mul hfront (hword ".")))

theorem mem_role : bytes ∈ 1 + role ↔ ∃ value, Role.Spells bytes value := by
  simp only [mem_optional, role]
  constructor
  · rintro (rfl | hrole)
    · exact ⟨_, .standard⟩
    · obtain ⟨_, ⟨letter, hletter, rfl⟩, _, rfl, rfl⟩ := Language.mem_mul.mp hrole
      obtain ⟨value, hvalue⟩ := Option.isSome_iff_exists.mp ((agreesOn letter).role.mp hletter)
      exact ⟨value, .letter hvalue⟩
  · rintro ⟨value, hvalue⟩
    cases hvalue with
    | standard => exact .inl rfl
    | @letter letter _ hrole =>
        have hletter := singleton_mem_oneOf
          ((agreesOn letter).role.mpr (Option.isSome_of_eq_some hrole))
        exact .inr (Language.append_mem_mul hletter (mem_word.mpr rfl))

theorem mem_modifier :
    bytes ∈ modifier ↔ ∃ value, Role.Spells bytes value ∧ value.isModifier = true := by
  constructor
  · intro hmem
    obtain ⟨_, ⟨letter, hletter, rfl⟩, _, rfl, rfl⟩ := Language.mem_mul.mp hmem
    obtain ⟨value, hvalue, hmodifier⟩ :=
      (Option.any_eq_true _ _).mp ((agreesOn letter).modifier.mp hletter)
    exact ⟨value, .letter hvalue, hmodifier⟩
  · rintro ⟨value, hvalue, hmodifier⟩
    cases hvalue with
    | standard => cases hmodifier
    | @letter letter _ hrole =>
        have hletter := singleton_mem_oneOf
          ((agreesOn letter).modifier.mpr ((Option.any_eq_true _ _).mpr ⟨value, hrole, hmodifier⟩))
        exact Language.append_mem_mul hletter (mem_word.mpr rfl)

/-- The words for conditions are what spells a condition: one with a comparison, or a modifier that
stands alone. -/
theorem mem_condition : bytes ∈ condition ↔ ∃ value, Condition.Spells bytes value := by
  rw [condition, Language.mem_add]
  constructor
  · rintro (hcompared | halone)
    · obtain ⟨_, h₄, count, hcount, rfl⟩ := Language.mem_mul.mp hcompared
      obtain ⟨_, h₃, right, hright, rfl⟩ := Language.mem_mul.mp h₄
      obtain ⟨_, h₂, sign, hsign, rfl⟩ := Language.mem_mul.mp h₃
      obtain ⟨mark, hmark, left, hleft, rfl⟩ := Language.mem_mul.mp h₂
      obtain ⟨role, hrole⟩ := mem_role.mp hmark
      obtain ⟨source, hsource⟩ := mem_operand.mp hleft
      obtain ⟨comparison, hcomparison⟩ := mem_comparison.mp hsign
      obtain ⟨target, htarget⟩ := mem_operand.mp hright
      obtain ⟨requiredHits, hhits⟩ := mem_hits.mp hcount
      simp only [List.append_assoc]
      exact ⟨_, .compared hrole hsource hcomparison htarget hhits⟩
    · obtain ⟨_, hfront, count, hcount, rfl⟩ := Language.mem_mul.mp halone
      obtain ⟨mark, hmark, left, hleft, rfl⟩ := Language.mem_mul.mp hfront
      obtain ⟨role, hrole, hmodifier⟩ := mem_modifier.mp hmark
      obtain ⟨source, hsource⟩ := mem_operand.mp hleft
      obtain ⟨requiredHits, hhits⟩ := mem_hits.mp hcount
      rw [List.append_assoc]
      exact ⟨_, .alone hrole hmodifier hsource hhits⟩
  · rintro ⟨value, hvalue⟩
    cases hvalue with
    | compared hrole hsource hcomparison htarget hhits =>
        left
        simp only [← List.append_assoc]
        apply Language.append_mem_mul _ (mem_hits.mpr ⟨_, hhits⟩)
        apply Language.append_mem_mul _ (mem_operand.mpr ⟨_, htarget⟩)
        apply Language.append_mem_mul _ (mem_comparison.mpr ⟨_, hcomparison⟩)
        exact Language.append_mem_mul (mem_role.mpr ⟨_, hrole⟩) (mem_operand.mpr ⟨_, hsource⟩)
    | alone hrole hmodifier hsource hhits =>
        right
        rw [← List.append_assoc]
        apply Language.append_mem_mul _ (mem_hits.mpr ⟨_, hhits⟩)
        exact Language.append_mem_mul (mem_modifier.mpr ⟨_, hrole, hmodifier⟩)
          (mem_operand.mpr ⟨_, hsource⟩)

theorem mem_group : bytes ∈ group ↔ ∃ value, Group.Spells bytes value := by
  have hjoined : bytes ∈ separated condition "_" ↔
      ∃ conditions, Joined Condition.Spells '_'.toUInt8 bytes conditions :=
    mem_separated rfl fun _ => mem_condition
  rw [group, mem_optional, hjoined]
  constructor
  · rintro (rfl | ⟨conditions, hconditions⟩)
    · exact ⟨_, .empty⟩
    · exact ⟨_, .joined hconditions⟩
  · rintro ⟨value, hvalue⟩
    cases hvalue with
    | empty => exact .inl rfl
    | joined hconditions => exact .inr ⟨_, hconditions⟩

/-- The words of the language are the spellings of triggers. -/
theorem mem_trigger : bytes ∈ trigger ↔ ∃ value, Trigger.Spells bytes value := by
  have hjoined : bytes ∈ trigger ↔ ∃ groups, Joined Group.Spells 'S'.toUInt8 bytes groups :=
    mem_separated rfl fun _ => mem_group
  rw [hjoined]
  constructor
  · rintro ⟨groups, hgroups⟩
    exact ⟨_, .joined hgroups⟩
  · rintro ⟨value, hvalue⟩
    cases hvalue with
    | joined hgroups => exact ⟨_, hgroups⟩

end DefinitionLanguage

/-! ## Accepted texts -/

theorem Operand.Spells.isFloatLiteral {bytes : List UInt8} {operand : Operand}
    (hspells : Operand.Spells bytes operand) : operand.isFloatLiteral = false := by
  cases hspells <;> rfl

theorem Condition.Spells.isFloatLiteral {bytes : List UInt8} {condition : Condition}
    (hspells : Condition.Spells bytes condition) :
    ∀ operand ∈ condition.operands, operand.isFloatLiteral = false := by
  cases hspells with
  | compared hrole hsource hcomparison htarget hhits =>
      simp [operands, hsource.isFloatLiteral, htarget.isFloatLiteral]
  | alone hrole hmodifier hsource hhits =>
      have hdefault : (default : Operand).isFloatLiteral = false := rfl
      simp [operands, hsource.isFloatLiteral, hdefault]

theorem Text.Joined.forall_mem {Value : Type} {spells : List UInt8 → Value → Prop}
    {separator : UInt8} {bytes : List UInt8} {values : List Value} {holds : Value → Prop}
    (hjoined : Joined spells separator bytes values)
    (hspells : ∀ bytes value, spells bytes value → holds value) :
    ∀ value ∈ values, holds value := by
  induction hjoined with
  | single hvalue => simpa using hspells _ _ hvalue
  | cons hvalue hlater ih => exact List.forall_mem_cons.mpr ⟨hspells _ _ hvalue, ih⟩

theorem Group.Spells.isFloatLiteral {bytes : List UInt8} {group : Group}
    (hspells : Group.Spells bytes group) : ∀ condition ∈ group.conditions,
      ∀ operand ∈ condition.operands, operand.isFloatLiteral = false := by
  cases hspells with
  | empty => simp
  | joined hconditions => exact hconditions.forall_mem fun _ _ hspells => hspells.isFloatLiteral

namespace Trigger

/-- What is spelled has no decimal fraction in it. -/
theorem Spells.isFloatLiteral {bytes : List UInt8} {trigger : Trigger}
    (hspells : Trigger.Spells bytes trigger) :
    ∀ operand ∈ trigger.operands, operand.isFloatLiteral = false := by
  cases hspells with
  | joined hgroups =>
      have hall := hgroups.forall_mem fun _ _ hspells => hspells.isFloatLiteral
      simp only [operands, groups_ofGroups hgroups.length_pos, List.mem_flatMap]
      rintro operand ⟨group, hgroup, condition, hcondition, hoperand⟩
      exact hall group hgroup condition hcondition operand hoperand

/-- A text is accepted, without a decimal fraction in it, exactly if it is a word of the language of
definitions; and it is read as the trigger that it spells. -/
theorem readAll_iff_spells (text : String) :
    (bytesOf text ∈ DefinitionLanguage.trigger ↔
      ∃ trigger, Trigger.read.readAll text = .ok trigger ∧
        ∀ operand ∈ trigger.operands, operand.isFloatLiteral = false) ∧
    ∀ trigger, Trigger.Spells (bytesOf text) trigger ↔
      Trigger.read.readAll text = .ok trigger ∧
        ∀ operand ∈ trigger.operands, operand.isFloatLiteral = false := by
  have hspells (trigger : Trigger) : Trigger.Spells (bytesOf text) trigger ↔
      Trigger.read.readAll text = .ok trigger ∧
        ∀ operand ∈ trigger.operands, operand.isFloatLiteral = false := by
    constructor
    · intro hspells
      have hreads : Reader.Reads Trigger.read (bytesOf text) trigger [] :=
        hspells.reads (by simp [FollowedBy])
      exact ⟨Reader.readAll_of_reads hreads, hspells.isFloatLiteral⟩
    · rintro ⟨hread, hfractions⟩
      exact Reader.Consumes.readAll (fun _ => consumes_trigger) hread hfractions
  refine ⟨?_, hspells⟩
  rw [DefinitionLanguage.mem_trigger]
  exact exists_congr hspells

end Trigger

end AchievementLogic
