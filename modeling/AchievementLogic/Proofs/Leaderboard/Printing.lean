import AchievementLogic.Proofs.Leaderboard.SectionOrder
import AchievementLogic.Proofs.Score.Printing

/-!
# Definitions read again from their text

The sections of a definition are written in one order, whatever order they were read in.  Each of
them says what it said when it was read, so that the definition is read again from its text if its
free text can be told from what stands around it.
-/

namespace AchievementLogic.Leaderboard

open Text Reader

/-! ## What is read from a text -/

/-- What a section contains once it is read: free text has no two colons in a row. -/
def Tag.IsRead : (tag : Tag) → tag.Content → Prop
  | .start, trigger | .cancel, trigger | .submit, trigger => Trigger.IsRead trigger
  | .value, formula | .progress, formula => Formula.IsRead formula
  | .format, _ => True
  | .title, text | .description, text => ¬ HasColons text

/-- Up to the first two colons in a row there are no two colons in a row. -/
theorem not_infix_bytesBeforeColons (bytes : List UInt8) :
    ¬ [58, 58] <:+: Sections.bytesBeforeColons bytes := by
  induction bytes with
  | nil => decide
  | cons head tail ih =>
      rw [Sections.bytesBeforeColons]
      split
      case isTrue => decide
      case isFalse hgoes =>
        intro hpair
        rcases List.infix_cons_iff.mp hpair with hprefix | hlater
        · obtain ⟨rfl, hnext⟩ := List.cons_prefix_cons.mp hprefix
          apply hgoes
          cases tail with
          | nil => simp [Sections.bytesBeforeColons] at hnext
          | cons second others =>
              rw [Sections.bytesBeforeColons] at hnext
              split at hnext
              · simp at hnext
              · obtain ⟨rfl, -⟩ := List.cons_prefix_cons.mp hnext
                rfl
        · exact ih hlater

/-- Free text is read up to two colons, so that it has none in a row itself. -/
theorem ensures_readText : Ensures Sections.readText fun text => ¬ HasColons text := by
  refine .of_next fun scan => .of_next fun _ => .pure ?_
  intro hcolons
  cases htext : ofBytes? (Sections.bytesBeforeColons scan.remaining) with
  | none =>
      rw [htext] at hcolons
      exact absurd hcolons (by decide)
  | some text =>
      rw [htext] at hcolons
      have hpair := infix_bytesOf_of_hasColons hcolons
      rw [Option.getD_some, bytesOf_of_ofBytes? htext] at hpair
      exact not_infix_bytesBeforeColons _ hpair

theorem ensures_body {Value : Type} {reader : Reader Value} {holds : Value → Prop}
    (hensures : Ensures reader holds) : Ensures (Sections.body reader) holds :=
  hensures.bind fun _ hvalue => .of_next fun _ => .pure hvalue

theorem Tag.ensures_read (tag : Tag) : Ensures tag.read tag.IsRead := by
  cases tag with
  | start | cancel | submit => exact ensures_body Trigger.ensures_read
  | value | progress => exact ensures_body Formula.ensures_read
  | format => exact .of_next fun _ => .pure trivial
  | title | description => exact ensures_readText

namespace Sections

def IsRead (sections : Sections) : Prop :=
  ∀ tag content, sections.found? tag = some content → tag.IsRead content

theorem IsRead.put {sections : Sections} (hread : sections.IsRead) {tag : Tag}
    {content : tag.Content} (hcontent : tag.IsRead content) :
    (sections.put tag content).IsRead := by
  intro other found hfound
  rw [found?_put] at hfound
  by_cases hother : other = tag
  · obtain rfl := hother
    rw [Function.update_self] at hfound
    obtain rfl := Option.some.inj hfound
    exact hcontent
  · rw [Function.update_of_ne hother] at hfound
    exact hread other found hfound

theorem IsRead.ensures_readOne {sections : Sections} (hread : sections.IsRead) :
    Ensures sections.readOne IsRead := by
  have hput (tag : Tag) : Ensures (do return sections.put tag (← tag.read)) IsRead :=
    tag.ensures_read.bind fun content hcontent => .pure (hread.put hcontent)
  refine .of_next fun scan => .of_next fun _ => ?_
  split
  · exact hput .start
  · exact hput .cancel
  · exact hput .submit
  · exact hput .value
  · exact hput .progress
  · have hformat := hput .format
    rwa [put_format] at hformat
  · exact hput .title
  · exact hput .description
  · intro scan result after hrun
    cases hrun

theorem IsRead.ensures_readFrom {sections : Sections} (hread : sections.IsRead) (rounds : Nat) :
    Ensures (sections.readFrom rounds) IsRead := by
  induction rounds generalizing sections with
  | zero => exact .pure hread
  | succ rounds ih =>
      refine hread.ensures_readOne.bind fun more hmore => .of_next fun _ => .of_next fun scan => ?_
      split
      · exact .pure hmore
      · exact ih hmore

end Sections

namespace Definition

/-- A definition as it is read from a text. -/
def IsRead (definition : Definition) : Prop :=
  ∀ tag content, definition.content? tag = some content → tag.IsRead content

theorem isRead_of_ofText {text : String} {definition : Definition}
    (hdefinition : ofText text = .ok definition) : definition.IsRead := by
  have hnone : Sections.IsRead {} := by
    intro tag content hcontent
    cases tag <;> cases hcontent
  simp only [ofText] at hdefinition
  split at hdefinition
  · rename_i sections after hrun
    have hread := hnone.ensures_readFrom _ _ _ _ hrun
    rwa [IsRead, Sections.content?_of_toDefinition hdefinition]
  · cases hdefinition

/-! ## The sections that are written -/

def body? (definition : Definition) : Tag → Option String
  | .start => some definition.start.text
  | .cancel => some definition.cancel.text
  | .submit => some definition.submit.text
  | .value => some definition.value.text
  | .progress => definition.progress?.map Formula.text
  | .format => definition.format?.map Format.name
  | .title => definition.title?
  | .description => definition.description?

def sections (definition : Definition) (tags : List Tag) : List Section :=
  tags.filterMap fun tag => (definition.body? tag).map (Section.written tag)

theorem textAfter_sections_cons (definition : Definition) (closing : String) (tag : Tag)
    (tags : List Tag) :
    textAfter closing (definition.sections (tag :: tags)) =
      ((definition.body? tag).map fun body => "::" ++ tag.mark ++ body).getD "" ++
        textAfter closing (definition.sections tags) := by
  rw [sections, List.filterMap_cons]
  cases definition.body? tag with
  | none => simp [sections]
  | some body => simp [sections, textAfter_cons, Section.text, Section.written, String.append_assoc]

theorem textAfter_sections_nil (definition : Definition) (closing : String) :
    textAfter closing (definition.sections []) = closing := by
  simp [sections, textAfter]

/-- The tags between the first one and the free text, in the order in which they are written. -/
def middleTags : List Tag := [.cancel, .submit, .progress, .value, .format]

/-- The tags of the free text, which is written last. -/
def lastTags : List Tag := [.title, .description]

def writtenTags : List Tag := .start :: (middleTags ++ lastTags)

theorem text_eq (definition : Definition) :
    definition.text =
      (Section.written .start definition.start.text).text ++
        textAfter "" (definition.sections (middleTags ++ lastTags)) := by
  simp only [middleTags, lastTags, List.cons_append, List.nil_append, textAfter_sections_cons,
    textAfter_sections_nil, body?, Option.map_map, Option.map_some, Option.getD_some]
  -- An equation for `text` would be checked by computing on its literals.
  delta Definition.text
  simp only [Section.written, Section.text, String.append_assoc, String.append_empty]
  rfl

theorem mem_sections {definition : Definition} {tags : List Tag} {piece : Section} :
    piece ∈ definition.sections tags ↔
      ∃ tag ∈ tags, ∃ body, definition.body? tag = some body ∧ Section.written tag body = piece := by
  simp only [sections, List.mem_filterMap, Option.map_eq_some_iff]

theorem map_tag_sections (definition : Definition) (tags : List Tag) :
    (definition.sections tags).map Section.tag =
      tags.filter fun tag => (definition.body? tag).isSome := by
  induction tags with
  | nil => rfl
  | cons tag tags ih =>
      rw [sections, List.filterMap_cons, List.filter_cons]
      cases definition.body? tag with
      | none => exact ih
      | some body => exact congrArg (tag :: ·) ih

/-! ## Reading the sections again -/

def triggers (definition : Definition) : List Trigger :=
  [definition.start, definition.cancel, definition.submit]

def formulas (definition : Definition) : List Formula :=
  definition.value :: definition.progress?.toList

/-- There are no decimal fractions and no empty alternates in the triggers, and no numbers as factors
in the formulas. -/
structure IsPlain (definition : Definition) : Prop where
  constants : ∀ trigger ∈ definition.triggers, ∀ operand ∈ trigger.operands,
    operand.isFloatLiteral = false
  alternates : ∀ trigger ∈ definition.triggers, ∀ group ∈ trigger.alternates,
    group.isEmpty = false
  factors : ∀ formula ∈ definition.formulas, ∀ clause ∈ formula.clauses,
    clause.factor.modifier = 1.0

/-- What a definition is once its formulas are read again. -/
def reread (definition : Definition) : Definition :=
  { definition with
    value := definition.value.reread
    progress? := definition.progress?.map Formula.reread }

/-- Without decimal fractions and empty alternates a trigger comes back from its text as it is. -/
theorem readAll_trigger {definition : Definition} (hplain : definition.IsPlain) {trigger : Trigger}
    (hmem : trigger ∈ definition.triggers) (hread : trigger.IsRead) :
    Trigger.read.readAll trigger.text = .ok trigger := by
  have hwhole : trigger.withoutEmpty = trigger := by
    have halternates : trigger.alternates.filter (!·.isEmpty) = trigger.alternates := by
      apply List.filter_eq_self.mpr
      intro group hgroup
      rw [hplain.alternates trigger hmem group hgroup]
      rfl
    rw [Trigger.withoutEmpty, halternates]
  have hspells := Trigger.spells_text hread (hplain.constants trigger hmem)
  rw [hwhole] at hspells
  apply readAll_of_reads
  apply hspells.reads
  intro byte hbyte
  cases hbyte

/-- What is written under a tag says on its own what the definition says there. -/
theorem contentOf_body {definition : Definition} (hread : definition.IsRead)
    (hplain : definition.IsPlain) {tag : Tag} {body : String}
    (hbody : definition.body? tag = some body) :
    ∃ content, tag.contentOf body = .ok content ∧
      definition.reread.content? tag = some content := by
  have htrigger {trigger : Trigger} (hmem : trigger ∈ definition.triggers)
      (htrigger : trigger.IsRead) : Trigger.read.readAll trigger.text = .ok trigger :=
    readAll_trigger hplain hmem htrigger
  have hformula {formula : Formula} (hmem : formula ∈ definition.formulas)
      (hformula : formula.IsRead) : Formula.read.readAll formula.text = .ok formula.reread :=
    Formula.readAll_eq_reread hformula (hplain.factors formula hmem)
  cases tag with
  | start =>
      cases hbody
      exact ⟨_, htrigger (by simp [triggers]) (hread .start _ rfl), rfl⟩
  | cancel =>
      cases hbody
      exact ⟨_, htrigger (by simp [triggers]) (hread .cancel _ rfl), rfl⟩
  | submit =>
      cases hbody
      exact ⟨_, htrigger (by simp [triggers]) (hread .submit _ rfl), rfl⟩
  | value =>
      cases hbody
      exact ⟨_, hformula (by simp [formulas]) (hread .value _ rfl), rfl⟩
  | progress =>
      obtain ⟨formula, hprogress, rfl⟩ := Option.map_eq_some_iff.mp hbody
      refine ⟨_, hformula ?_ (hread .progress _ hprogress), ?_⟩
      · simp [formulas, hprogress]
      · exact congrArg (Option.map Formula.reread) hprogress
  | format =>
      obtain ⟨format, hformat, rfl⟩ := Option.map_eq_some_iff.mp hbody
      refine ⟨_, rfl, ?_⟩
      rw [Format.ofName_name]
      exact hformat
  | title => exact ⟨body, rfl, hbody⟩
  | description => exact ⟨body, rfl, hbody⟩

theorem content?_reread_eq_none {definition : Definition} {tag : Tag}
    (hbody : definition.body? tag = none) : definition.reread.content? tag = none := by
  cases tag with
  | start | cancel | submit | value => cases hbody
  | progress =>
      have hprogress : definition.progress? = none := Option.map_eq_none_iff.mp hbody
      exact congrArg (Option.map Formula.reread) hprogress
  | format => exact Option.map_eq_none_iff.mp hbody
  | title | description => exact hbody

/-- A definition is made up of what it has under its tags, and of nothing else. -/
theorem content?_injective : Function.Injective content? := by
  intro left right hsame
  have hstart := Option.some.inj (congrFun hsame .start)
  have hcancel := Option.some.inj (congrFun hsame .cancel)
  have hsubmit := Option.some.inj (congrFun hsame .submit)
  have hvalue := Option.some.inj (congrFun hsame .value)
  have hprogress := congrFun hsame .progress
  have hformat := congrFun hsame .format
  have htitle := congrFun hsame .title
  have hdescription := congrFun hsame .description
  obtain ⟨start, cancel, submit, value, progress?, format?, title?, description?⟩ := left
  cases hstart
  cases hcancel
  cases hsubmit
  cases hvalue
  cases hprogress
  cases hformat
  cases htitle
  cases hdescription
  rfl

section

variable {definition : Definition}

theorem isAccepted_written (hread : definition.IsRead) (hplain : definition.IsPlain) {tag : Tag}
    {body : String} (hbody : definition.body? tag = some body) :
    (Section.written tag body).IsAccepted := by
  obtain ⟨content, hcontent, -⟩ := contentOf_body hread hplain hbody
  exact ⟨content, hcontent⟩

/-- The sections in front of the free text can stand anywhere. -/
theorem isPlaceable_of_leading (hread : definition.IsRead) (hplain : definition.IsPlain) :
    ∀ piece ∈ definition.sections (.start :: middleTags), piece.IsPlaceable := by
  intro piece hmem
  obtain ⟨tag, htag, body, hbody, rfl⟩ := mem_sections.mp hmem
  refine ⟨isAccepted_written hread hplain hbody, fun hfree => ?_⟩
  cases tag with
  | start | cancel | submit | value | progress => cases hfree
  | title | description => exact absurd htag (by decide)
  | format =>
      obtain ⟨format, -, rfl⟩ := Option.map_eq_some_iff.mp hbody
      cases format <;> decide

/-- The title does not end in a colon if a description is written after it. -/
def IsDelimited (definition : Definition) : Prop :=
  ∀ title ∈ definition.title?, definition.description? ≠ none → ¬ EndsInColon title

/-- At the end free text can be told from its surroundings: it has no two colons in a row, and only
a title in front of a description could end in one. -/
theorem allStand_lastTags (hread : definition.IsRead) (hdelimited : definition.IsDelimited) :
    AllStand "" (definition.sections lastTags) := by
  have hdescription : AllStand "" (definition.sections [.description]) := by
    cases hsome : definition.description? with
    | none => simp [sections, body?, hsome, AllStand]
    | some description =>
        have hstands : (Section.written .description description).StandsBefore "" :=
          ⟨⟨description, rfl⟩, fun _ => ⟨hread .description description hsome, fun _ => rfl⟩⟩
        simpa [sections, body?, hsome, AllStand, textAfter] using hstands
  cases hsome : definition.title? with
  | none => simpa [lastTags, sections, body?, hsome] using hdescription
  | some title =>
      have hstands : (Section.written .title title).StandsBefore
          (textAfter "" (definition.sections [.description])) := by
        refine ⟨⟨title, rfl⟩, fun _ => ⟨hread .title title hsome, fun hcolon => ?_⟩⟩
        cases hafter : definition.description? with
        | none => simp [sections, body?, hafter, textAfter]
        | some description =>
            exact absurd hcolon (hdelimited title hsome (by simp [hafter]))
      have hsections : definition.sections lastTags =
          Section.written .title title :: definition.sections [.description] := by
        simp [lastTags, sections, body?, hsome]
      rw [hsections]
      exact ⟨hstands, hdescription⟩

theorem allStand_writtenTags (hread : definition.IsRead) (hplain : definition.IsPlain)
    (hdelimited : definition.IsDelimited) : AllStand "" (definition.sections writtenTags) := by
  have hleading := allStand_of_isPlaceable (textAfter "" (definition.sections lastTags))
    (isPlaceable_of_leading hread hplain)
  have hwhole := allStand_append hleading (allStand_lastTags hread hdelimited)
  rwa [sections, sections, ← List.filterMap_append] at hwhole

theorem mem_writtenTags (tag : Tag) : tag ∈ writtenTags := by
  cases tag <;> decide

theorem mem_map_tag_sections {tag : Tag} :
    tag ∈ (definition.sections writtenTags).map Section.tag ↔ (definition.body? tag).isSome := by
  rw [map_tag_sections, List.mem_filter]
  exact and_iff_right (mem_writtenTags tag)

/-- The sections say all that is in the definition that is read again. -/
theorem eq_reread_of_contents (hread : definition.IsRead) (hplain : definition.IsPlain)
    {again : Definition}
    (hcontents : ∀ piece ∈ definition.sections writtenTags,
      again.content? piece.tag = some piece.content)
    (hnothing : ∀ tag ∉ (definition.sections writtenTags).map Section.tag,
      again.content? tag = none) : again = definition.reread := by
  apply content?_injective
  funext tag
  cases hbody : definition.body? tag with
  | none =>
      rw [content?_reread_eq_none hbody]
      apply hnothing
      rw [mem_map_tag_sections, hbody]
      decide
  | some body =>
      obtain ⟨content, hcontent, hreread⟩ := contentOf_body hread hplain hbody
      have hfound := hcontents (Section.written tag body)
        (mem_sections.mpr ⟨tag, mem_writtenTags tag, body, hbody, rfl⟩)
      rw [Section.content_eq hcontent] at hfound
      rw [hreread]
      exact hfound

/-- What is written is read again if trimming takes nothing off it. -/
theorem ofText_text_of_endsInInk (hread : definition.IsRead) (hplain : definition.IsPlain)
    (hdelimited : definition.IsDelimited) (hink : EndsInInk definition.text) :
    ofText definition.text = .ok definition.reread := by
  have hstand := allStand_writtenTags hread hplain hdelimited
  have hdistinct : ((definition.sections writtenTags).map Section.tag).Nodup := by
    rw [map_tag_sections]
    exact List.Nodup.filter _ (by decide)
  have hneeded : ∀ tag ∈ neededTags, tag ∈ (definition.sections writtenTags).map Section.tag := by
    intro tag hneed
    rw [mem_map_tag_sections]
    simp only [neededTags, List.mem_cons, List.not_mem_nil, or_false] at hneed
    rcases hneed with rfl | rfl | rfl | rfl <;> rfl
  rw [text_eq] at hink ⊢
  obtain ⟨again, hagain, hcontents, hnothing⟩ :=
    ofText_of_allStand (.inl rfl) hstand hink hdistinct hneeded
  exact hagain.trans (congrArg Except.ok (eq_reread_of_contents hread hplain hcontents hnothing))

end

end Definition

end AchievementLogic.Leaderboard
