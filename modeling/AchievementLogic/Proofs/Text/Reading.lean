import AchievementLogic.Proofs.Text.Numerals
import AchievementLogic.Proofs.Text.Scanning
import AchievementLogic.Text.Reader

/-!
# What readers read and what they ensure

A reader *reads* bytes in front of others if it gives the same value wherever these bytes stand and
stops right after them.  It *ensures* a property that all its values have, whatever text they come
from.
-/

namespace AchievementLogic

open Text

variable {Value Result : Type}

namespace Reader

/-! ## Running the parts of a reader -/

theorem run_bind_of_ok {first : Reader Value} {scan after : Scan} {value : Value}
    (hfirst : first.run scan = .ok value after) (next : Value → Reader Result) :
    (first >>= next).run scan = (next value).run after := by
  rw [EStateM.run_bind, hfirst]

@[simp]
theorem run_peek (scan : Scan) : peek.run scan = .ok scan.peek scan := rfl

@[simp]
theorem run_skip (count : Nat) (scan : Scan) : (skip count).run scan = .ok () (scan.skip count) :=
  rfl

theorem run_accepts_some {step : Scan → Option Scan} {scan after : Scan}
    (hstep : step scan = some after) : (accepts step).run scan = .ok true after := by
  rw [accepts, run_bind_of_ok (EStateM.run_get scan), hstep]
  rfl

theorem run_accepts_none {step : Scan → Option Scan} {scan : Scan} (hstep : step scan = none) :
    (accepts step).run scan = .ok false scan := by
  rw [accepts, run_bind_of_ok (EStateM.run_get scan), hstep]
  rfl

theorem run_require {read : Scan → Option (Value × Scan)} {scan after : Scan} {value : Value}
    (hread : read scan = some (value, after)) (cause : ParseError.Cause) (position : Nat) :
    (require read cause position).run scan = .ok value after := by
  rw [require, run_bind_of_ok (EStateM.run_get scan), hread]
  rfl

/-! ## Reading -/

/-- The reader gives `value` for these bytes in front of `rest`, and stops there. -/
def Reads (reader : Reader Value) (bytes : List UInt8) (value : Value) (rest : List UInt8) : Prop :=
  ∀ position, reader.run ⟨bytes ++ rest, position⟩ = .ok value ⟨rest, position + bytes.length⟩

theorem Reads.pure (value : Value) (rest : List UInt8) :
    Reads (Pure.pure value : Reader Value) [] value rest := fun _ => rfl

theorem Reads.bind {first : Reader Value} {next : Value → Reader Result}
    {left right rest : List UInt8} {value : Value} {result : Result}
    (hfirst : Reads first left value (right ++ rest))
    (hnext : Reads (next value) right result rest) :
    Reads (first >>= next) (left ++ right) result rest := by
  intro position
  rw [List.append_assoc, run_bind_of_ok (hfirst position), hnext, List.length_append, Nat.add_assoc]

/-- A reader that reads nothing in front of what the next one reads. -/
theorem Reads.bind_nil {first : Reader Value} {next : Value → Reader Result}
    {bytes rest : List UInt8} {value : Value} {result : Result}
    (hfirst : Reads first [] value (bytes ++ rest)) (hnext : Reads (next value) bytes result rest) :
    Reads (first >>= next) bytes result rest :=
  Reads.bind hfirst hnext

/-- Reading and then changing the value. -/
theorem Reads.map {reader : Reader Value} {bytes rest : List UInt8} {value : Value}
    (hreads : Reads reader bytes value rest) (change : Value → Result) :
    Reads (do return change (← reader)) bytes (change value) rest := by
  intro position
  rw [run_bind_of_ok (hreads position), EStateM.run_pure]

/-! A reader that only looks leaves everything to the next one. -/

theorem Reads.get_bind {next : Scan → Reader Result} {bytes rest : List UInt8} {result : Result}
    (hnext : ∀ position, Reads (next ⟨bytes ++ rest, position⟩) bytes result rest) :
    Reads (get >>= next) bytes result rest := fun position => hnext position position

theorem Reads.position_bind {next : Nat → Reader Result} {bytes rest : List UInt8}
    {result : Result} (hnext : ∀ start, Reads (next start) bytes result rest) :
    Reads (Reader.position >>= next) bytes result rest := fun position => hnext position position

theorem Reads.peek_bind {next : Option Char → Reader Result} {bytes rest : List UInt8}
    {result : Result}
    (hnext : Reads (next ((bytes ++ rest).head?.map Char.ofUInt8)) bytes result rest) :
    Reads (Reader.peek >>= next) bytes result rest := by
  intro position
  have hpeek : Scan.peek ⟨bytes ++ rest, position⟩ = (bytes ++ rest).head?.map Char.ofUInt8 := by
    cases bytes ++ rest <;> rfl
  rw [run_bind_of_ok (run_peek _), hpeek]
  exact hnext position

theorem Reads.skip (bytes rest : List UInt8) : Reads (Reader.skip bytes.length) bytes () rest := by
  intro position
  rw [run_skip, Scan.skip_append]

/-- Stepping over the first byte and reading the others. -/
theorem Reads.skip_one {next : Reader Result} {bytes rest : List UInt8} {result : Result}
    (hnext : Reads next bytes result rest) (byte : UInt8) :
    Reads (Reader.skip 1 >>= fun _ => next) (byte :: bytes) result rest :=
  Reads.bind (Reads.skip [byte] (bytes ++ rest)) hnext

theorem Reads.accept {byte : UInt8} {expected : Char} (hbyte : Char.ofUInt8 byte = expected)
    (rest : List UInt8) : Reads (Reader.accept expected) [byte] true rest := by
  intro position
  exact run_accepts_some (Scan.accept?_cons_self hbyte rest position)

theorem Reads.accept_none {expected : Char} {rest : List UInt8}
    (hrest : ∀ byte ∈ rest.head?, Char.ofUInt8 byte ≠ expected) :
    Reads (Reader.accept expected) [] false rest := by
  intro position
  exact run_accepts_none (Scan.accept?_eq_none hrest position)

/-! ## Reading a part

Where the end of a text is read by the same reader after different beginnings, or is not read at all,
the beginning is described by itself: the reader comes to `rest` and goes on there as another one. -/

/-- After these bytes in front of `rest` the reader goes on as `next`. -/
def Leads (reader : Reader Value) (bytes : List UInt8) (next : Reader Value) (rest : List UInt8) :
    Prop :=
  ∀ position, reader.run ⟨bytes ++ rest, position⟩ = next.run ⟨rest, position + bytes.length⟩

/-- What goes on is what comes after the first reader. -/
theorem Leads.of_reads {first : Reader Value} {bytes rest : List UInt8} {value : Value}
    (hfirst : Reads first bytes value rest) (next : Value → Reader Result) :
    Leads (first >>= next) bytes (next value) rest :=
  fun position => run_bind_of_ok (hfirst position) next

theorem Leads.bind {first : Reader Value} {next : Value → Reader Result} {last : Reader Result}
    {left right rest : List UInt8} {value : Value} (hfirst : Reads first left value (right ++ rest))
    (hnext : Leads (next value) right last rest) :
    Leads (first >>= next) (left ++ right) last rest := by
  intro position
  rw [List.append_assoc, run_bind_of_ok (hfirst position), hnext, List.length_append, Nat.add_assoc]

theorem Leads.position_bind {next : Nat → Reader Result} {last : Reader Result}
    {bytes rest : List UInt8} (hnext : ∀ start, Leads (next start) bytes last rest) :
    Leads (Reader.position >>= next) bytes last rest := fun position => hnext position position

theorem Leads.reads {reader next : Reader Value} {left right rest : List UInt8} {value : Value}
    (hleads : Leads reader left next (right ++ rest)) (hreads : Reads next right value rest) :
    Reads reader (left ++ right) value rest := by
  intro position
  rw [List.append_assoc, hleads, hreads, List.length_append, Nat.add_assoc]

/-! ## Reading a whole text -/

/-- A text that is read to its end is accepted as a whole. -/
theorem readAll_of_reads {reader : Reader Value} {text : String} {value : Value}
    (hreads : Reads reader (bytesOf text) value []) : reader.readAll text = .ok value := by
  have hrun := hreads 0
  rw [List.append_nil] at hrun
  simp [readAll, Scan.ofString, run_bind_of_ok hrun, finish]

/-- A text is not accepted if the reader fails in it. -/
theorem readAll_of_error {reader : Reader Value} {text : String} {error : ParseError} {after : Scan}
    (hrun : reader.run (Scan.ofString text) = .error error after) :
    reader.readAll text = .error error := by
  simp [readAll, EStateM.run_bind, hrun]

end Reader

/-! ## Items between separators -/

/-- Bytes that spell items, with the separator between two of them. -/
inductive Text.Joined (spells : List UInt8 → Value → Prop) (separator : UInt8) :
    List UInt8 → List Value → Prop
  | single {bytes : List UInt8} {value : Value} (hspells : spells bytes value) :
      Joined spells separator bytes [value]
  | cons {bytes others : List UInt8} {value : Value} {values : List Value}
      (hspells : spells bytes value) (hothers : Joined spells separator others values) :
      Joined spells separator (bytes ++ separator :: others) (value :: values)

theorem Text.Joined.length_pos {spells : List UInt8 → Value → Prop} {separator : UInt8}
    {bytes : List UInt8} {values : List Value} (hjoined : Joined spells separator bytes values) :
    0 < values.length := by
  cases hjoined <;> simp

theorem Text.Joined.length_le {spells : List UInt8 → Value → Prop} {separator : UInt8}
    {bytes : List UInt8} {values : List Value} (hjoined : Joined spells separator bytes values) :
    values.length ≤ bytes.length + 1 := by
  induction hjoined with
  | single => simp
  | cons hspells hothers ih =>
      rw [List.length_cons, List.length_append, List.length_cons]
      omega

namespace Reader

section Separated

variable {item : Reader Value} {separator : Char} {mark : UInt8} {rest : List UInt8}
  {spells : List UInt8 → Value → Prop}

/-- An item is read in front of a separator and in front of what follows the last one. -/
theorem reads_separatedFrom (hmark : Char.ofUInt8 mark = separator)
    (hitem : ∀ {bytes value after}, spells bytes value →
      after = rest ∨ after.head? = some mark → Reads item bytes value after)
    (hrest : ∀ byte ∈ rest.head?, Char.ofUInt8 byte ≠ separator)
    {bytes : List UInt8} {values : List Value} (hjoined : Joined spells mark bytes values)
    {rounds : Nat} (hrounds : values.length ≤ rounds + 1) :
    Reads (separatedFrom item separator rounds) bytes values rest := by
  induction hjoined generalizing rounds with
  | @single bytes value hspells =>
      have hfirst := hitem hspells (.inl rfl)
      cases rounds with
      | zero => exact hfirst.map fun value => [value]
      | succ rounds =>
          have hstop : Reads (accept separator) [] false ([] ++ rest) := Reads.accept_none hrest
          rw [← List.append_nil bytes]
          exact hfirst.bind (hstop.bind (Reads.pure [value] rest))
  | @cons bytes others value values hspells hothers ih =>
      have hpos := hothers.length_pos
      cases rounds with
      | zero =>
          rw [List.length_cons] at hrounds
          omega
      | succ rounds =>
          have hfirst : Reads item bytes value (mark :: others ++ rest) :=
            hitem hspells (.inr rfl)
          have hlater := ih (Nat.le_of_succ_le_succ hrounds)
          have hmarked : Reads (accept separator) [mark] true (others ++ rest) :=
            Reads.accept hmark _
          exact hfirst.bind (hmarked.bind (hlater.map fun values => value :: values))

/-- Items are read one by one if each of them can be read both in front of a separator and in front
of what follows the last one. -/
theorem reads_separated (hmark : Char.ofUInt8 mark = separator)
    (hitem : ∀ {bytes value after}, spells bytes value →
      after = rest ∨ after.head? = some mark → Reads item bytes value after)
    (hrest : ∀ byte ∈ rest.head?, Char.ofUInt8 byte ≠ separator)
    {bytes : List UInt8} {values : List Value} (hjoined : Joined spells mark bytes values) :
    Reads (separated item separator) bytes values rest := by
  intro position
  have hrounds : values.length ≤ (bytes ++ rest).length + 1 := by
    have hle := hjoined.length_le
    rw [List.length_append]
    omega
  rw [separated, run_bind_of_ok (EStateM.run_get _)]
  exact reads_separatedFrom hmark hitem hrest hjoined hrounds position

end Separated

/-! ## Ensuring -/

/-- Every value that the reader gives has the property. -/
def Ensures (reader : Reader Value) (holds : Value → Prop) : Prop :=
  ∀ scan value after, reader.run scan = .ok value after → holds value

theorem Ensures.pure {holds : Value → Prop} {value : Value} (hvalue : holds value) :
    Ensures (Pure.pure value) holds := by
  intro scan result after hrun
  cases hrun
  exact hvalue

theorem Ensures.fail (holds : Value → Prop) (cause : ParseError.Cause) (position : Nat) :
    Ensures (Reader.fail cause position) holds := by
  intro scan result after hrun
  cases hrun

/-- What a reader ensures may be used of the value that is handed on to the next one. -/
theorem Ensures.bind {first : Reader Value} {next : Value → Reader Result} {holds : Value → Prop}
    {property : Result → Prop} (hfirst : Ensures first holds)
    (hnext : ∀ value, holds value → Ensures (next value) property) :
    Ensures (first >>= next) property := by
  intro scan result after hrun
  rw [EStateM.run_bind] at hrun
  cases hvalue : first.run scan with
  | ok value between =>
      rw [hvalue] at hrun
      exact hnext value (hfirst scan value between hvalue) between result after hrun
  | error error between =>
      rw [hvalue] at hrun
      cases hrun

/-- What the last reader ensures of whatever was read before it. -/
theorem Ensures.of_next {first : Reader Value} {next : Value → Reader Result}
    {property : Result → Prop} (hnext : ∀ value, Ensures (next value) property) :
    Ensures (first >>= next) property :=
  Ensures.bind (fun _ _ _ _ => True.intro) fun value _ => hnext value

/-- What holds of every item that is read holds of all items of a list. -/
theorem Ensures.separated {item : Reader Value} {holds : Value → Prop} (hitem : Ensures item holds)
    (separator : Char) :
    Ensures (Reader.separated item separator) fun values => ∀ value ∈ values, holds value := by
  have hfrom (rounds : Nat) : Ensures (separatedFrom item separator rounds)
      fun values => ∀ value ∈ values, holds value := by
    induction rounds with
    | zero =>
        refine hitem.bind fun value hvalue => ?_
        exact .pure (by simpa using hvalue)
    | succ rounds ih =>
        refine hitem.bind fun value hvalue => .of_next fun more => ?_
        cases more with
        | true =>
            refine ih.bind fun others hothers => ?_
            exact .pure (by simpa using ⟨hvalue, hothers⟩)
        | false => exact .pure (by simpa using hvalue)
  exact .of_next fun scan => hfrom scan.remaining.length

theorem Ensures.readAll {reader : Reader Value} {holds : Value → Prop}
    (hensures : Ensures reader holds) {text : String} {value : Value}
    (hread : reader.readAll text = .ok value) : holds value := by
  have hwhole : Ensures (do let value ← reader; finish; return value) holds := by
    refine hensures.bind fun value hvalue => ?_
    exact .of_next fun _ => .pure hvalue
  unfold Reader.readAll at hread
  split at hread
  · cases hread
    exact hwhole _ _ _ ‹_›
  · cases hread

end Reader

end AchievementLogic
