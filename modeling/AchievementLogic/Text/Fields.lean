import AchievementLogic.Text.Scan

/-!
# Fields

Lines, tables and documents are read field by field.  The blanks at the ends of a field do not count,
and a field can be a number only as a whole: an optional sign and digits, and nothing else.  Whole
numbers are written in any size; a field takes those that fit its width and has no value for the
others.  A record gives a field or leaves it out: how the field is read says what it means to leave it
out, and a field that is there has to be readable in any case.
-/

namespace AchievementLogic

/-! ## Blanks -/

namespace Text

/-- The code points that have the `White_Space` property, as closed ranges. -/
def blankRanges : List (Nat × Nat) :=
  [(0x09, 0x0D), (0x20, 0x20), (0x85, 0x85), (0xA0, 0xA0), (0x1680, 0x1680), (0x2000, 0x200A),
    (0x2028, 0x2029), (0x202F, 0x202F), (0x205F, 0x205F), (0x3000, 0x3000)]

def isBlank (letter : Char) : Bool :=
  blankRanges.any fun (first, last) => first ≤ letter.toNat && letter.toNat ≤ last

/-- A text without the members at its end that `drops` selects. -/
def dropEnd (drops : Char → Bool) (letters : List Char) : List Char :=
  (letters.reverse.dropWhile drops).reverse

def trimEnd (text : String) : String := String.ofList (dropEnd isBlank text.toList)

def trim (text : String) : String := String.ofList (dropEnd isBlank (text.toList.dropWhile isBlank))

/-- A line without the carriage returns and line feeds at its end. -/
def trimLineEnd (text : String) : String :=
  String.ofList (dropEnd (fun letter => letter = '\r' || letter = '\n') text.toList)

end Text

/-! ## Numbers that fit a width -/

namespace Width

def word? (number : Int) : Option UInt32 :=
  if 0 ≤ number && number < 0x100000000 then some (UInt32.ofNat number.toNat) else none

def int64? (number : Int) : Option Int64 :=
  if -0x8000000000000000 ≤ number && number < 0x8000000000000000 then some (Int64.ofInt number)
  else none

end Width

/-! ## Whole texts that are numbers -/

namespace Text

/-- The number that digits write, if there are any and nothing else. -/
def natOfDigits? (base : Nat) (digits : List Char) : Option Nat :=
  if digits.isEmpty then none
  else digits.foldlM (fun value digit => (digitValue? base digit).map (value * base + ·)) 0

/-- The number that a text writes, with or without a plus sign. -/
def natOf? (base : Nat) (letters : List Char) : Option Nat :=
  match letters with
  | '+' :: digits => natOfDigits? base digits
  | digits => natOfDigits? base digits

/-- The decimal number that a text writes, with or without a sign. -/
def intOf? (letters : List Char) : Option Int :=
  match letters with
  | '-' :: digits => (natOfDigits? 10 digits).map fun size => -size
  | letters => (natOf? 10 letters).map fun size => size

def wordOf? (base : Nat) (text : String) : Option UInt32 :=
  (natOf? base text.toList).bind fun number => Width.word? number

def int64Of? (text : String) : Option Int64 := (intOf? text.toList).bind Width.int64?

end Text

/-! ## Records -/

namespace RecordField

/-- A field that may be left out. -/
def orDefault (read? : ω → Option α) (default : α) : Option ω → Option α
  | none => some default
  | some written => read? written

/-- A field that has to be there. -/
def required (read? : ω → Option α) : Option ω → Option α
  | none => none
  | some written => read? written

end RecordField

end AchievementLogic
