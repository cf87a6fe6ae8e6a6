import AchievementLogic.Text.Scan

/-!
# Looking and stepping

A place in a text is what remains of it, so the operations of a scan are computed on the bytes that
come next.  These are the equations that every reading lemma opens a scan with.
-/

namespace AchievementLogic

/-- The next byte, if there is one, shows one of these letters. -/
def FollowedBy (letters : List Char) (rest : List UInt8) : Prop :=
  ∀ byte ∈ rest.head?, Char.ofUInt8 byte ∈ letters

theorem FollowedBy.nil (letters : List Char) : FollowedBy letters [] := by
  intro byte hmem
  cases hmem

theorem FollowedBy.cons {letters : List Char} {byte : UInt8}
    (hbyte : Char.ofUInt8 byte ∈ letters) (others : List UInt8) :
    FollowedBy letters (byte :: others) := by
  intro next hmem
  cases hmem
  exact hbyte

theorem FollowedBy.mono {letters others : List Char} {rest : List UInt8}
    (hrest : FollowedBy letters rest) (hsubset : letters ⊆ others) : FollowedBy others rest :=
  fun byte hmem => hsubset (hrest byte hmem)

theorem FollowedBy.ne {letters : List Char} {rest : List UInt8} (hrest : FollowedBy letters rest)
    {letter : Char} (hletter : letter ∉ letters) :
    ∀ byte ∈ rest.head?, Char.ofUInt8 byte ≠ letter := by
  intro byte hmem heq
  exact hletter (heq ▸ hrest byte hmem)

/-- What is seen next is nothing or one of these letters. -/
theorem FollowedBy.peek {letters : List Char} {rest : List UInt8} (hrest : FollowedBy letters rest) :
    rest.head?.map Char.ofUInt8 = none ∨
      ∃ letter ∈ letters, rest.head?.map Char.ofUInt8 = some letter := by
  cases rest with
  | nil => exact .inl rfl
  | cons byte others => exact .inr ⟨_, hrest byte rfl, rfl⟩

namespace Text.Scan

@[simp]
theorem peek_nil (position : Nat) : peek ⟨[], position⟩ = none := rfl

@[simp]
theorem peek_cons (byte : UInt8) (rest : List UInt8) (position : Nat) :
    peek ⟨byte :: rest, position⟩ = some (Char.ofUInt8 byte) := rfl

@[simp]
theorem peekAt_zero (scan : Scan) : scan.peekAt 0 = scan.peek := rfl

@[simp]
theorem peekAt_succ_cons (byte : UInt8) (rest : List UInt8) (offset position : Nat) :
    peekAt ⟨byte :: rest, position⟩ (offset + 1) = peekAt ⟨rest, position + 1⟩ offset := rfl

theorem skip_append (bytes rest : List UInt8) (position : Nat) :
    skip ⟨bytes ++ rest, position⟩ bytes.length = ⟨rest, position + bytes.length⟩ := by
  simp [skip]

@[simp]
theorem skip_one_cons (byte : UInt8) (rest : List UInt8) (position : Nat) :
    skip ⟨byte :: rest, position⟩ 1 = ⟨rest, position + 1⟩ := rfl

theorem accept?_cons_self {byte : UInt8} {expected : Char} (hbyte : Char.ofUInt8 byte = expected)
    (rest : List UInt8) (position : Nat) :
    accept? ⟨byte :: rest, position⟩ expected = some ⟨rest, position + 1⟩ := by
  simp [accept?, hbyte]

theorem accept?_eq_none {expected : Char} {rest : List UInt8}
    (hrest : ∀ byte ∈ rest.head?, Char.ofUInt8 byte ≠ expected) (position : Nat) :
    accept? ⟨rest, position⟩ expected = none := by
  cases rest with
  | nil => rfl
  | cons byte others =>
      have hbyte := hrest byte (by simp)
      simp [accept?, hbyte]

end Text.Scan

end AchievementLogic
