import AchievementLogic.Proofs.Text.Reading

/-!
# What readers take off a text

A reader *consumes* what it reads: whenever it gives a value, the bytes it stepped over stand to
that value in some relation.  This is the converse of reading; what was consumed in turn is consumed
as a whole.  A reader may look at the text before it decides, so consuming is stated for one place.
-/

namespace AchievementLogic

open Text

variable {Value Result : Type}

/-! ## Bytes and digits -/

namespace Text

/-- A text begins with as many digits as there are, which may be none. -/
theorem exists_leadingDigits (base : Nat) (bytes : List UInt8) :
    ∃ front rest digits, bytes = front ++ rest ∧ AreDigits base front digits ∧
      EndsDigits base rest := by
  induction bytes with
  | nil => exact ⟨[], [], [], rfl, rfl, by simp [EndsDigits]⟩
  | cons byte others ih =>
      cases hdigit : digitValue? base (Char.ofUInt8 byte) with
      | none => exact ⟨[], byte :: others, [], rfl, rfl, by simpa [EndsDigits] using hdigit⟩
      | some digit =>
          obtain ⟨front, rest, digits, rfl, hfront, hrest⟩ := ih
          refine ⟨byte :: front, rest, digit :: digits, rfl, ?_, hrest⟩
          rw [AreDigits, List.map_cons, List.map_cons, hdigit, hfront]

/-- A number that is read is written by the digits before the place where reading stopped. -/
theorem Scan.exists_digits_of_readDigits {base : Nat} (hbase : 0 < base) {scan after : Scan}
    {word : UInt32} (hread : scan.readDigits base = some (word, after)) :
    ∃ bytes digits, scan.remaining = bytes ++ after.remaining ∧ AreDigits base bytes digits ∧
      bytes ≠ [] ∧ word = clampedWord (numberOf base digits) := by
  obtain ⟨remaining, position⟩ := scan
  obtain ⟨front, rest, digits, rfl, hfront, hrest⟩ := exists_leadingDigits base remaining
  by_cases hnone : front = []
  · rw [hnone, List.nil_append, readDigits_eq_none hrest] at hread
    cases hread
  · rw [readDigits_append hbase hfront hnone hrest] at hread
    cases hread
    exact ⟨front, digits, rfl, hfront, hnone, rfl⟩

theorem Scan.remaining_of_accept? {scan after : Scan} {expected : Char}
    (haccept : scan.accept? expected = some after) :
    scan.remaining = expected.toUInt8 :: after.remaining := by
  obtain ⟨remaining, position⟩ := scan
  cases remaining with
  | nil => cases haccept
  | cons byte others =>
      by_cases hbyte : Char.ofUInt8 byte = expected
      · rw [accept?_cons_self hbyte] at haccept
        cases haccept
        rw [← hbyte, toUInt8_ofUInt8]
      · rw [accept?_eq_none (by simpa using hbyte)] at haccept
        cases haccept

end Text

namespace Reader

/-! ## Consuming -/

/-- Whatever value the reader gives here, the bytes that it took are in the relation to it. -/
def Consumes (reader : Reader Value) (scan : Scan) (spells : List UInt8 → Value → Prop) : Prop :=
  ∀ value after, reader.run scan = .ok value after →
    ∃ bytes, scan.remaining = bytes ++ after.remaining ∧ spells bytes value

variable {scan : Scan}

theorem Consumes.mono {reader : Reader Value} {spells others : List UInt8 → Value → Prop}
    (hconsumes : Consumes reader scan spells)
    (hspells : ∀ bytes value, spells bytes value → others bytes value) :
    Consumes reader scan others := by
  intro value after hrun
  obtain ⟨bytes, hbytes, hvalue⟩ := hconsumes value after hrun
  exact ⟨bytes, hbytes, hspells bytes value hvalue⟩

theorem Consumes.pure {spells : List UInt8 → Value → Prop} {value : Value}
    (hvalue : spells [] value) : Consumes (Pure.pure value) scan spells := by
  intro result after hrun
  cases hrun
  exact ⟨[], rfl, hvalue⟩

theorem Consumes.fail (spells : List UInt8 → Value → Prop) (cause : ParseError.Cause)
    (position : Nat) : Consumes (Reader.fail cause position) scan spells := by
  intro result after hrun
  cases hrun

/-- What is consumed in turn is consumed together. -/
theorem Consumes.bind {first : Reader Value} {next : Value → Reader Result}
    {holds : List UInt8 → Value → Prop} {spells : List UInt8 → Result → Prop}
    (hfirst : Consumes first scan holds)
    (hnext : ∀ left value after, holds left value →
      Consumes (next value) after fun right => spells (left ++ right)) :
    Consumes (first >>= next) scan spells := by
  intro result after hrun
  rw [EStateM.run_bind] at hrun
  cases hvalue : first.run scan with
  | ok value between =>
      rw [hvalue] at hrun
      obtain ⟨left, hleft, hholds⟩ := hfirst value between hvalue
      obtain ⟨right, hright, hspells⟩ := hnext left value between hholds result after hrun
      exact ⟨left ++ right, by rw [hleft, hright, List.append_assoc], hspells⟩
  | error error between =>
      rw [hvalue] at hrun
      cases hrun

theorem Consumes.map {reader : Reader Value} {holds : List UInt8 → Value → Prop}
    {spells : List UInt8 → Result → Prop} (hreader : Consumes reader scan holds)
    {change : Value → Result}
    (hchange : ∀ bytes value, holds bytes value → spells bytes (change value)) :
    Consumes (do return change (← reader)) scan spells := by
  refine hreader.bind fun left value after hvalue => Consumes.pure ?_
  rw [List.append_nil]
  exact hchange left value hvalue

/-! A reader that only looks leaves everything to the next one. -/

theorem Consumes.get_bind {next : Scan → Reader Result} {spells : List UInt8 → Result → Prop}
    (hnext : Consumes (next scan) scan spells) : Consumes (get >>= next) scan spells := hnext

theorem Consumes.position_bind {next : Nat → Reader Result} {spells : List UInt8 → Result → Prop}
    (hnext : Consumes (next scan.position) scan spells) :
    Consumes (Reader.position >>= next) scan spells := hnext

theorem Consumes.peek_bind {next : Option Char → Reader Result}
    {spells : List UInt8 → Result → Prop} (hnext : Consumes (next scan.peek) scan spells) :
    Consumes (Reader.peek >>= next) scan spells := hnext

theorem Consumes.skip (bytes rest : List UInt8) (position : Nat) :
    Consumes (Reader.skip bytes.length) ⟨bytes ++ rest, position⟩ fun taken _ => taken = bytes := by
  intro value after hrun
  rw [run_skip, Scan.skip_append] at hrun
  cases hrun
  exact ⟨bytes, rfl, rfl⟩

/-- Stepping over the first byte and consuming what comes after it. -/
theorem Consumes.skip_one {next : Reader Result} {byte : UInt8} {rest : List UInt8}
    {position : Nat} {spells : List UInt8 → Result → Prop}
    (hnext : Consumes next ⟨rest, position + 1⟩ fun bytes => spells (byte :: bytes)) :
    Consumes (Reader.skip 1 >>= fun _ => next) ⟨byte :: rest, position⟩ spells := by
  intro result after hrun
  obtain ⟨bytes, hbytes, hspells⟩ := hnext result after hrun
  exact ⟨byte :: bytes, congrArg (byte :: ·) hbytes, hspells⟩

theorem Consumes.accepts {step : Scan → Option Scan} {holds : List UInt8 → Bool → Prop}
    (hsome : ∀ after, step scan = some after →
      ∃ bytes, scan.remaining = bytes ++ after.remaining ∧ holds bytes true)
    (hnone : holds [] false) : Consumes (Reader.accepts step) scan holds := by
  intro found after hrun
  cases hstep : step scan with
  | none =>
      rw [run_accepts_none hstep] at hrun
      cases hrun
      exact ⟨[], rfl, hnone⟩
  | some between =>
      rw [run_accepts_some hstep] at hrun
      cases hrun
      exact hsome after hstep

theorem Consumes.require {read : Scan → Option (Value × Scan)} {spells : List UInt8 → Value → Prop}
    (hread : ∀ value after, read scan = some (value, after) →
      ∃ bytes, scan.remaining = bytes ++ after.remaining ∧ spells bytes value)
    (cause : ParseError.Cause) (position : Nat) :
    Consumes (Reader.require read cause position) scan spells := by
  intro value after hrun
  cases hvalue : read scan with
  | none =>
      rw [Reader.require, run_bind_of_ok (EStateM.run_get scan), hvalue] at hrun
      cases hrun
  | some result =>
      rw [run_require hvalue] at hrun
      cases hrun
      exact hread _ _ hvalue

/-- The byte that shows as the accepted letter, or nothing. -/
theorem Consumes.accept (expected : Char) :
    Consumes (Reader.accept expected) scan fun bytes found =>
      bytes = if found then [expected.toUInt8] else [] := by
  refine Consumes.accepts (fun after hstep => ⟨_, ?_, rfl⟩) rfl
  rw [Scan.remaining_of_accept? hstep, if_pos rfl, List.singleton_append]

/-! ## Items between separators -/

section Separated

variable {item : Reader Value} {separator : Char} {spells : List UInt8 → Value → Prop}

theorem Consumes.separatedFrom (hitem : ∀ scan, Consumes item scan spells) (rounds : Nat) :
    Consumes (Reader.separatedFrom item separator rounds) scan
      (Joined spells separator.toUInt8) := by
  induction rounds generalizing scan with
  | zero => exact (hitem scan).map fun bytes value hvalue => Joined.single hvalue
  | succ rounds ih =>
      refine (hitem scan).bind fun left value after hvalue => ?_
      refine (Consumes.accept separator).bind fun mark found later hmark => ?_
      subst hmark
      cases found with
      | false =>
          refine Consumes.pure ?_
          simpa using Joined.single hvalue
      | true => exact ih.map fun others values hothers => Joined.cons hvalue hothers

theorem Consumes.separated (hitem : ∀ scan, Consumes item scan spells) :
    Consumes (Reader.separated item separator) scan (Joined spells separator.toUInt8) :=
  Consumes.get_bind (Consumes.separatedFrom hitem scan.remaining.length)

end Separated

/-- The value of a whole text is that of a reader that stops at the end of the text. -/
theorem readAll_eq_ok_iff {reader : Reader Value} {text : String} {value : Value} :
    reader.readAll text = .ok value ↔
      ∃ position, reader.run (Scan.ofString text) = .ok value ⟨[], position⟩ := by
  cases hrun : reader.run (Scan.ofString text) with
  | error error after => simp [readAll, EStateM.run_bind, hrun]
  | ok found after =>
      obtain ⟨remaining, position⟩ := after
      cases remaining with
      | nil => simp [readAll, run_bind_of_ok hrun, finish]
      | cons byte others =>
          have hfail : (do let value ← reader; finish; return value : Reader Value).run
              (Scan.ofString text) =
                .error ⟨.unexpectedCharacter (Char.ofUInt8 byte), some position⟩
                  ⟨byte :: others, position⟩ := by
            rw [run_bind_of_ok hrun]
            rfl
          rw [readAll, hfail]
          simp

/-- A text that is accepted as a whole is consumed to its end. -/
theorem Consumes.readAll {reader : Reader Value} {spells : List UInt8 → Value → Prop}
    (hreader : ∀ scan, Consumes reader scan spells) {text : String} {value : Value}
    (hread : reader.readAll text = .ok value) : spells (bytesOf text) value := by
  obtain ⟨position, hrun⟩ := readAll_eq_ok_iff.mp hread
  obtain ⟨bytes, hbytes, hspells⟩ := hreader _ value _ hrun
  have hwhole : bytesOf text = bytes := by simpa [Scan.ofString] using hbytes
  rwa [hwhole]

end Reader

end AchievementLogic
