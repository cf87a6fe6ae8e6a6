import AchievementLogic.Proofs.Leaderboard.Sections

/-!
# Sections in any order

A section can stand anywhere if its body means something on its own and, where it is free text,
neither has two colons in a row nor ends in a colon.  Sections with distinct tags, among them the
needed ones, then make up a definition in whatever order they come: each says in it what it says on
its own.  Trimming takes nothing off such a text, for its last letter ends no line.
-/

namespace AchievementLogic.Leaderboard

open Text Reader

/-! ## Sections that can stand anywhere -/

namespace Section

/-- A section with an accepted body, or with free text that is not mistaken for its surroundings. -/
structure IsPlaceable (piece : Section) : Prop where
  accepted : piece.IsAccepted
  delimited : piece.tag.isFree →
    ¬ HasColons piece.body ∧ ¬ EndsInColon piece.body ∧ EndsInInk piece.body

theorem IsPlaceable.standsBefore {piece : Section} (hplaceable : piece.IsPlaceable)
    (rest : String) : piece.StandsBefore rest := by
  refine ⟨hplaceable.accepted, fun hfree => ?_⟩
  obtain ⟨hinside, hlast, -⟩ := hplaceable.delimited hfree
  exact ⟨hinside, fun hcolon => absurd hcolon hlast⟩

/-- What is accepted of triggers and formulas is a single line. -/
theorem IsAccepted.endsInInk {piece : Section} (haccepted : piece.IsAccepted)
    (hfree : piece.tag.isFree = false) : EndsInInk piece.body := by
  obtain ⟨tag, letters, body, spelled⟩ := piece
  obtain ⟨content, hcontent⟩ := haccepted
  have hlegible (hbytes : ∀ byte ∈ bytesOf body, IsLegible byte) : EndsInInk body :=
    endsInInk_of_isInk fun byte hmem => isInk_of_isLegible (hbytes byte hmem)
  have htrigger {trigger : Trigger} (hread : Trigger.read.readAll body = .ok trigger) :
      EndsInInk body := hlegible (Trigger.isLegible_of_readAll hread)
  have hformula {formula : Formula} (hread : Formula.read.readAll body = .ok formula) :
      EndsInInk body := hlegible (Formula.isLegible_of_readAll hread)
  cases tag with
  | start | cancel | submit => exact htrigger hcontent
  | value | progress => exact hformula hcontent
  | format | title | description => cases hfree

theorem IsPlaceable.endsInInk_body {piece : Section} (hplaceable : piece.IsPlaceable) :
    EndsInInk piece.body := by
  cases hfree : piece.tag.isFree with
  | true => exact (hplaceable.delimited hfree).2.2
  | false => exact hplaceable.accepted.endsInInk hfree

theorem endsInInk_letters (piece : Section) : EndsInInk piece.letters := by
  intro letter hlast
  have hupper : letter.toUpper = ':' := by
    have hmark : piece.tag.mark.toList.getLast? = some ':' := by
      cases piece.tag <;> rfl
    rw [← piece.toUpper_toList, List.getLast?_map, hlast] at hmark
    exact Option.some.inj hmark
  constructor
  · rintro rfl
    revert hupper
    decide
  · rintro rfl
    revert hupper
    decide

theorem IsPlaceable.endsInInk_text {piece : Section} (hplaceable : piece.IsPlaceable) :
    EndsInInk piece.text :=
  hplaceable.endsInInk_body.append fun _ => piece.endsInInk_letters

end Section

section

variable {closing : String} {pieces : List Section}

theorem allStand_of_isPlaceable (closing : String)
    (hplaceable : ∀ piece ∈ pieces, piece.IsPlaceable) : AllStand closing pieces := by
  induction pieces with
  | nil => trivial
  | cons piece later ih =>
      constructor
      · exact (hplaceable piece List.mem_cons_self).standsBefore _
      · exact ih fun other hmem => hplaceable other (List.mem_cons_of_mem _ hmem)

theorem endsInInk_textAfter (hclosing : EndsInInk closing)
    (hplaceable : ∀ piece ∈ pieces, piece.IsPlaceable) : EndsInInk (textAfter closing pieces) := by
  induction pieces with
  | nil => simpa [textAfter] using hclosing
  | cons piece later ih =>
      have hlater := ih fun other hmem => hplaceable other (List.mem_cons_of_mem _ hmem)
      have hpiece := (hplaceable piece List.mem_cons_self).endsInInk_text
      rw [textAfter_cons]
      exact (hlater.append fun _ => hpiece).append fun _ => by decide

end

/-! ## Definitions -/

/-- Sections with distinct tags make up a definition in any order, and what each of them says in it
is what its body says on its own.  Two colons may close the text. -/
theorem ofText_of_isPlaceable {pieces : List Section} {closing : String}
    (hclosing : closing = "" ∨ closing = "::")
    (hdistinct : (pieces.map Section.tag).Nodup)
    (hneeded : ∀ tag ∈ neededTags, tag ∈ pieces.map Section.tag)
    (hplaceable : ∀ piece ∈ pieces, piece.IsPlaceable) :
    ∃ definition,
      Definition.ofText ("::".intercalate (pieces.map Section.text) ++ closing) = .ok definition ∧
      (∀ piece ∈ pieces, ∃ content, piece.tag.contentOf piece.body = .ok content ∧
        definition.content? piece.tag = some content) ∧
      ∀ tag ∉ pieces.map Section.tag, definition.content? tag = none := by
  cases pieces with
  | nil => cases hneeded .start (by decide)
  | cons piece later =>
      have hink : EndsInInk (piece.text ++ textAfter closing later) := by
        apply EndsInInk.append
        · apply endsInInk_textAfter
          · rcases hclosing with rfl | rfl
            · decide
            · decide
          · exact fun other hmem => hplaceable other (List.mem_cons_of_mem _ hmem)
        · exact fun _ => (hplaceable piece List.mem_cons_self).endsInInk_text
      obtain ⟨definition, hdefinition, hcontents, hnothing⟩ := Definition.ofText_of_allStand hclosing
        (allStand_of_isPlaceable closing hplaceable) hink hdistinct hneeded
      refine ⟨definition, ?_, ?_, hnothing⟩
      · rw [intercalate_text, hdefinition]
      · intro member hmem
        have haccepted := (hplaceable member hmem).accepted
        exact ⟨member.content, haccepted.contentOf_eq, hcontents member hmem⟩

/-- Sections out of their usual order, with tags in letters of either case. -/
def jumbledSections : List Section :=
  [⟨.title, "tTl:", "Green: Hill", by decide +kernel⟩,
    ⟨.value, "val:", "B0xH0002_V5", by decide +kernel⟩,
    ⟨.start, "STA:", "M:0xH0000=1.3.SR:0xH0001=2", by decide +kernel⟩,
    ⟨.format, "FOR:", " SECS", by decide +kernel⟩,
    ⟨.cancel, "Can:", "", by decide +kernel⟩,
    ⟨.submit, "sub:", "S0xH0000=3", by decide +kernel⟩]

theorem ofText_jumbledSections :
    ∃ definition,
      Definition.ofText ("::".intercalate (jumbledSections.map Section.text) ++ "::") =
        .ok definition ∧
      (∀ piece ∈ jumbledSections, ∃ content, piece.tag.contentOf piece.body = .ok content ∧
        definition.content? piece.tag = some content) ∧
      ∀ tag ∉ jumbledSections.map Section.tag, definition.content? tag = none := by
  have hplaceable : ∀ piece ∈ jumbledSections, piece.IsPlaceable := by
    intro piece hmem
    simp only [jumbledSections, List.mem_cons, List.not_mem_nil, or_false] at hmem
    rcases hmem with rfl | rfl | rfl | rfl | rfl | rfl
    all_goals exact ⟨⟨_, rfl⟩, by decide⟩
  exact ofText_of_isPlaceable (.inr rfl) (by decide) (by decide) hplaceable

end AchievementLogic.Leaderboard
