import AchievementLogic.Proofs.Leaderboard.Printing

/-!
# Free text that is read again

Free text that could be read at the end of a text cannot be read everywhere: in front of another
section its last colon is taken for the first of two, and a line end after the last section is
trimmed.  A definition is read again from its text if, and only if, its title and its description
are not so.
-/

namespace AchievementLogic.Leaderboard.Definition

open Text Reader

section

variable {definition : Definition}

/-! ## Line ends after a definition -/

/-- The definition that is left once its text is trimmed. -/
def trimmed (definition : Definition) : Definition :=
  match definition.description? with
  | some description => { definition with description? := some (trimLineEnd description) }
  | none => { definition with title? := definition.title?.map trimLineEnd }

theorem sections_middleTags_trimmed (definition : Definition) :
    definition.trimmed.start = definition.start ∧
      definition.trimmed.sections middleTags = definition.sections middleTags := by
  rw [trimmed]
  cases definition.description? with
  | none => exact ⟨rfl, rfl⟩
  | some description => exact ⟨rfl, rfl⟩

/-- Line ends at the end of a definition belong to the free text that is written last, a title only
where there is no description. -/
theorem trimLineEnd_lastTags (definition : Definition) :
    trimLineEnd (textAfter "" (definition.sections lastTags)) =
      textAfter "" (definition.trimmed.sections lastTags) := by
  have hends {opening : String} (hopening : EndsInInk opening) (hsome : opening ≠ "")
      (front text : String) :
      trimLineEnd (front ++ (opening ++ text)) = front ++ (opening ++ trimLineEnd text) := by
    have hfront : EndsInInk (front ++ opening) := hopening.append fun hempty => absurd hempty hsome
    rw [← String.append_assoc, trimLineEnd_append hfront, String.append_assoc]
  simp only [lastTags, textAfter_sections_cons, textAfter_sections_nil, body?, String.append_empty]
  rw [trimmed]
  cases hdescription : definition.description? with
  | some description =>
      exact hends (by decide) (by decide) _ description
  | none =>
      cases htitle : definition.title? with
      | none => rfl
      | some title =>
          have htrimmed := hends (by decide : EndsInInk ("::" ++ Tag.title.mark)) (by decide) "" title
          simpa using htrimmed

/-- What is written and trimmed is what is written of the trimmed definition. -/
theorem trimLineEnd_text (hread : definition.IsRead) (hplain : definition.IsPlain) :
    trimLineEnd definition.text = definition.trimmed.text := by
  have hplaceable := isPlaceable_of_leading hread hplain
  have hfront : EndsInInk ((Section.written .start definition.start.text).text ++
      textAfter "" (definition.sections middleTags)) := by
    apply EndsInInk.append
    · exact endsInInk_textAfter (by decide) fun piece hmem =>
        hplaceable piece (List.mem_cons_of_mem _ hmem)
    · exact fun _ => (hplaceable _ List.mem_cons_self).endsInInk_text
  have htext (definition : Definition) : definition.text =
      (Section.written .start definition.start.text).text ++
        textAfter "" (definition.sections middleTags) ++
          textAfter "" (definition.sections lastTags) := by
    rw [text_eq, sections, List.filterMap_append, textAfter_append, textAfter_eq,
      ← String.append_assoc]
    rfl
  obtain ⟨hstart, hmiddle⟩ := definition.sections_middleTags_trimmed
  rw [htext, htext definition.trimmed, trimLineEnd_append hfront, trimLineEnd_lastTags, hstart,
    hmiddle]

theorem ofText_trimLineEnd (text : String) : ofText (trimLineEnd text) = ofText text := by
  rw [ofText, trimLineEnd_eq_self_iff.mpr (endsInInk_trimLineEnd text), ofText]

theorem not_hasColons_trimLineEnd {text : String} (hinside : ¬ HasColons text) :
    ¬ HasColons (trimLineEnd text) :=
  fun hcolons => hinside (hcolons.trans (trimLineEnd_prefix_self text).isInfix)

/-- Cutting line ends off free text brings no two colons together. -/
theorem isRead_trimmed (hread : definition.IsRead) : definition.trimmed.IsRead := by
  intro tag content hcontent
  rw [trimmed] at hcontent
  cases hdescription : definition.description? with
  | some description =>
      rw [hdescription] at hcontent
      cases tag with
      | description =>
          obtain rfl := Option.some.inj hcontent
          exact not_hasColons_trimLineEnd (hread .description description hdescription)
      | _ => exact hread _ content hcontent
  | none =>
      rw [hdescription] at hcontent
      cases tag with
      | title =>
          obtain ⟨title, htitle, rfl⟩ := Option.map_eq_some_iff.mp hcontent
          exact not_hasColons_trimLineEnd (hread .title title htitle)
      | description => cases hcontent
      | _ => exact hread _ content hcontent

theorem isPlain_trimmed (hplain : definition.IsPlain) : definition.trimmed.IsPlain := by
  rw [trimmed]
  cases definition.description? with
  | none => exact ⟨hplain.constants, hplain.alternates, hplain.factors⟩
  | some description => exact ⟨hplain.constants, hplain.alternates, hplain.factors⟩

theorem isDelimited_trimmed (hdelimited : definition.IsDelimited) :
    definition.trimmed.IsDelimited := by
  rw [trimmed]
  cases hdescription : definition.description? with
  | none => exact fun title htitle hsome => absurd rfl hsome
  | some description =>
      exact fun title htitle _ => hdelimited title htitle (by simp [hdescription])

/-- A delimited definition is read again without the line ends after it. -/
theorem ofText_text (hread : definition.IsRead) (hplain : definition.IsPlain)
    (hdelimited : definition.IsDelimited) :
    ofText definition.text = .ok definition.trimmed.reread := by
  have htrimmed := trimLineEnd_text hread hplain
  have hink : EndsInInk definition.trimmed.text := by
    rw [← htrimmed]
    exact endsInInk_trimLineEnd _
  rw [← ofText_trimLineEnd, htrimmed]
  exact ofText_text_of_endsInInk (isRead_trimmed hread) (isPlain_trimmed hplain)
    (isDelimited_trimmed hdelimited) hink

/-! ## Titles that end in a colon -/

/-- The last colon of a text can be told from the letters before it. -/
theorem exists_of_endsInColon {text : String} (hinside : ¬ HasColons text)
    (hcolon : EndsInColon text) :
    ∃ front, text = front ++ ":" ∧ ¬ HasColons front ∧ ¬ EndsInColon front := by
  obtain ⟨letters, hletters⟩ := List.getLast?_eq_some_iff.mp hcolon
  refine ⟨String.ofList letters, ?_, ?_, ?_⟩
  · rw [← String.toList_inj, String.toList_append, String.toList_ofList, hletters]
    rfl
  · intro hcolons
    rw [HasColons, String.toList_ofList] at hcolons
    apply hinside
    rw [HasColons, hletters]
    exact hcolons.trans (List.prefix_append letters [':']).isInfix
  · intro hlast
    rw [EndsInColon, String.toList_ofList] at hlast
    obtain ⟨others, rfl⟩ := List.getLast?_eq_some_iff.mp hlast
    apply hinside
    rw [HasColons, hletters, List.append_assoc]
    exact (List.suffix_append others [':', ':']).isInfix

/-- A colon introduces no section. -/
theorem run_readFrom_colon (sections : Sections) (rounds : Nat) (text : String) (position : Nat) :
    ∃ error after, (sections.readFrom (rounds + 1)).run ⟨bytesOf (":DES:" ++ text), position⟩ =
      .error error after := by
  have htag : Sections.tagAt ⟨bytesOf (":DES:" ++ text), position⟩ = ":DES" := by
    have hbytes : bytesOf (":DES:" ++ text) = bytesOf ":DES" ++ (58 :: bytesOf text) := by
      rw [bytesOf_append]
      rfl
    have hlong : 4 ≤ (bytesOf ":DES" ++ (58 :: bytesOf text)).length := by
      rw [List.length_append]
      exact Nat.le_add_right 4 _
    rw [hbytes, Sections.tagAt, if_pos hlong]
    exact congrArg (Option.getD · _) (ofBytes?_bytesOf ":DES")
  have hupper : ":DES".toUpper = ":DES" := by decide +kernel
  have hone : sections.readOne.run ⟨bytesOf (":DES:" ++ text), position⟩ =
      .error ⟨.unknownSection ":DES" position, none⟩
        (Scan.skip ⟨bytesOf (":DES:" ++ text), position⟩ 4) := by
    rw [Sections.readOne, run_bind_of_ok (EStateM.run_get _), htag]
    simp only
    rw [run_bind_of_ok (run_skip 4 _), hupper]
    rfl
  rw [Sections.readFrom, EStateM.run_bind, hone]
  exact ⟨_, _, rfl⟩

/-- Sections with a colon too many after them make up no definition. -/
theorem exists_error_of_allStand {piece : Section} {later : List Section} {text : String}
    (hstand : AllStand ("::" ++ (":DES:" ++ text)) (piece :: later))
    (hink : EndsInInk (piece.text ++ textAfter ("::" ++ (":DES:" ++ text)) later)) :
    ∃ error, ofText (piece.text ++ textAfter ("::" ++ (":DES:" ++ text)) later) = .error error := by
  obtain ⟨rounds, hrounds⟩ := exists_rounds piece later ("::" ++ (":DES:" ++ text))
  obtain ⟨place, hrun⟩ := run_readFrom (.inr ⟨_, rfl⟩) hstand (rounds + 1) {} 0
  obtain ⟨error, after, herror⟩ :=
    run_readFrom_colon (Sections.putAll {} (piece :: later)) rounds text (place + 2)
  rw [Sections.run_goOn_colons _ (by simp), herror] at hrun
  refine ⟨error, ?_⟩
  rw [ofText, trimLineEnd_eq_self_iff.mpr hink]
  simp only [Scan.ofString, hrounds, hrun]

/-- The last colon of the title is taken for the first of the two after it, which leaves one over. -/
theorem text_eq_of_title {front description : String} (htitle : definition.title? = some (front ++ ":"))
    (hdescription : definition.description? = some description) :
    definition.text = (Section.written .start definition.start.text).text ++
      textAfter ("::" ++ (":DES:" ++ description))
        (definition.sections middleTags ++ [Section.written .title front]) := by
  have hlast : textAfter "" (definition.sections lastTags) =
      textAfter ("::" ++ (":DES:" ++ description)) [Section.written .title front] := by
    have hopening : ":" ++ ("::" ++ (Tag.description.mark ++ description)) =
        "::" ++ (":DES:" ++ description) := by
      rw [← String.append_assoc, ← String.append_assoc, ← String.append_assoc]
      rfl
    have hleft : textAfter "" (definition.sections lastTags) =
        "::" ++ Tag.title.mark ++ (front ++ ":") ++ ("::" ++ Tag.description.mark ++ description) := by
      simp only [lastTags, textAfter_sections_cons, textAfter_sections_nil, body?, htitle,
        hdescription, Option.map_some, Option.getD_some, String.append_empty]
    have hnone : textAfter ("::" ++ (":DES:" ++ description)) [] = "::" ++ (":DES:" ++ description) := by
      simp [textAfter]
    rw [hleft, textAfter_cons, hnone, ← hopening]
    simp only [Section.text, Section.written, String.append_assoc]
  rw [text_eq, textAfter_append, ← hlast, sections, List.filterMap_append, textAfter_append]
  rfl

/-- A title that ends in a colon runs into the tag of the description, and three colons in a row
leave a section without a known tag. -/
theorem exists_error_of_not_isDelimited (hread : definition.IsRead) (hplain : definition.IsPlain)
    (hmixed : ¬ definition.IsDelimited) : ∃ error, ofText definition.text = .error error := by
  have htrimmed := trimLineEnd_text hread hplain
  have hink : EndsInInk definition.trimmed.text := by
    rw [← htrimmed]
    exact endsInInk_trimLineEnd _
  rw [IsDelimited] at hmixed
  push Not at hmixed
  obtain ⟨title, htitle, hsome, hcolon⟩ := hmixed
  obtain ⟨description, hdescription⟩ := Option.ne_none_iff_exists'.mp hsome
  obtain ⟨front, rfl, hinside, hlast⟩ := exists_of_endsInColon (hread .title title htitle) hcolon
  have htitleLeft : definition.trimmed.title? = some (front ++ ":") := by
    rw [trimmed, hdescription]
    exact htitle
  have hdescriptionLeft : definition.trimmed.description? = some (trimLineEnd description) := by
    rw [trimmed, hdescription]
  have hfront : AllStand ("::" ++ (":DES:" ++ trimLineEnd description))
      [Section.written .title front] :=
    ⟨⟨⟨front, rfl⟩, fun _ => ⟨hinside, fun hends => absurd hends hlast⟩⟩, trivial⟩
  have hstand : AllStand ("::" ++ (":DES:" ++ trimLineEnd description))
      (Section.written .start definition.trimmed.start.text ::
        (definition.trimmed.sections middleTags ++ [Section.written .title front])) :=
    allStand_append (allStand_of_isPlaceable _
      (isPlaceable_of_leading (isRead_trimmed hread) (isPlain_trimmed hplain))) hfront
  rw [← ofText_trimLineEnd, htrimmed]
  rw [text_eq_of_title htitleLeft hdescriptionLeft] at hink ⊢
  exact exists_error_of_allStand hstand hink

/-! ## Definitions that are read again -/

/-- Definitions that say the same; formulas are compared by their text. -/
structure Agrees (again definition : Definition) : Prop where
  start : again.start = definition.start
  cancel : again.cancel = definition.cancel
  submit : again.submit = definition.submit
  value : again.value.text = definition.value.text
  progress? : again.progress?.map Formula.text = definition.progress?.map Formula.text
  format? : again.format? = definition.format?
  title? : again.title? = definition.title?
  description? : again.description? = definition.description?

theorem agrees_reread (definition : Definition) : definition.reread.Agrees definition where
  start := rfl
  cancel := rfl
  submit := rfl
  value := definition.value.text_reread
  progress? := by
    cases hprogress : definition.progress? with
    | none => simp [reread, hprogress]
    | some formula => simp [reread, hprogress, formula.text_reread]
  format? := rfl
  title? := rfl
  description? := rfl

/-- The free text at the end of what is written, if there is any. -/
def lastText? (definition : Definition) : Option String :=
  definition.description?.or definition.title?

/-- If trimming changes no free text, then the one that is written last ends no line. -/
theorem endsInInk_lastText (htitle : definition.trimmed.title? = definition.title?)
    (hdescription : definition.trimmed.description? = definition.description?) :
    ∀ last ∈ definition.lastText?, EndsInInk last := by
  intro last hlast
  apply trimLineEnd_eq_self_iff.mp
  rw [trimmed] at htitle hdescription
  rw [lastText?] at hlast
  cases hsome : definition.description? with
  | some description =>
      rw [hsome] at hlast hdescription
      obtain rfl : description = last := Option.some.inj hlast
      exact Option.some.inj hdescription
  | none =>
      rw [hsome] at hlast htitle
      obtain hlast : definition.title? = some last := hlast
      simpa [hlast] using htitle

theorem trimmed_eq_self (hlast : ∀ last ∈ definition.lastText?, EndsInInk last) :
    definition.trimmed = definition := by
  obtain ⟨start, cancel, submit, value, progress?, format?, title?, description?⟩ := definition
  cases description? with
  | some description =>
      have hkept := trimLineEnd_eq_self_iff.mpr (hlast description rfl)
      simp only [trimmed, hkept]
  | none =>
      cases title? with
      | none => rfl
      | some title =>
          have hkept := trimLineEnd_eq_self_iff.mpr (hlast title rfl)
          simp only [trimmed, Option.map_some, hkept]

end

/-- What was read from a text and written again is read as the same definition if, and only if, its
free text can be read where it is written: the title does not end in a colon in front of a
description, and the last text does not end in a line end.  Decimal fractions, empty alternates and
numbers as factors are left out. -/
theorem agrees_ofText_text_iff {text : String} {definition : Definition}
    (hdefinition : ofText text = .ok definition) (hplain : definition.IsPlain) :
    (∃ again, ofText definition.text = .ok again ∧ again.Agrees definition) ↔
      definition.IsDelimited ∧ ∀ last ∈ definition.lastText?, EndsInInk last := by
  have hread := isRead_of_ofText hdefinition
  constructor
  · rintro ⟨again, hagain, hagrees⟩
    have hdelimited : definition.IsDelimited := by
      by_contra hmixed
      obtain ⟨error, herror⟩ := exists_error_of_not_isDelimited hread hplain hmixed
      cases hagain.symm.trans herror
    refine ⟨hdelimited, ?_⟩
    obtain rfl := Except.ok.inj (hagain.symm.trans (ofText_text hread hplain hdelimited))
    exact endsInInk_lastText hagrees.title? hagrees.description?
  · rintro ⟨hdelimited, hlast⟩
    have hagain := ofText_text hread hplain hdelimited
    rw [trimmed_eq_self hlast] at hagain
    exact ⟨_, hagain, definition.agrees_reread⟩

/-- A definition with the free text that is given. -/
def hillDefinition (title? description? : Option String) : Definition where
  start := { core := ⟨[
    { role := .check .standard
      source := .memory { access := .address, size := .byte, address := 0 }
      comparison? := some .equal
      target := .word 1 }]⟩ }
  cancel := { core := ⟨[]⟩ }
  submit := { core := ⟨[]⟩ }
  value := ⟨[
    { joining := .first, address := 2, size := .byte, bcd := true
      factor := .memory 3 .lowNibble, invertBit := true },
    { joining := .maximum, address := 4294967291, size := .byte, literal := true }]⟩
  title? := title?
  description? := description?

theorem isPlain_hillDefinition (title? description? : Option String) :
    (hillDefinition title? description?).IsPlain where
  constants := by
    have hconstants : ∀ trigger ∈ (hillDefinition none none).triggers,
        ∀ operand ∈ trigger.operands, operand.isFloatLiteral = false := by decide
    exact hconstants
  alternates := by
    have halternates : ∀ trigger ∈ (hillDefinition none none).triggers,
        ∀ group ∈ trigger.alternates, group.isEmpty = false := by decide
    exact halternates
  factors := by
    intro formula hformula clause hclause
    obtain rfl := List.mem_singleton.mp hformula
    rcases List.mem_pair.mp hclause with rfl | rfl
    · rfl
    · rfl

theorem agrees_ofText_text_iff_hillDefinition :
    (∃ again, ofText (hillDefinition (some "Hill") (some "Fast:")).text = .ok again ∧
      again.Agrees (hillDefinition (some "Hill") (some "Fast:"))) ↔
      (hillDefinition (some "Hill") (some "Fast:")).IsDelimited ∧
        ∀ last ∈ (hillDefinition (some "Hill") (some "Fast:")).lastText?, EndsInInk last := by
  have hdefinition : ofText
      "TTL:Hill::sub:::Val:|b0xh2*~0XL03$v-5::STA:0xH0=1::CAN:::DES:Fast:" =
        .ok (hillDefinition (some "Hill") (some "Fast:")) := by
    with_unfolding_all rfl
  exact agrees_ofText_text_iff hdefinition (isPlain_hillDefinition _ _)

/-- A title that was read after the description is written in front of it; if it ends in a colon,
what is written is no definition. -/
theorem not_forall_agrees :
    ¬ ∀ text definition, ofText text = .ok definition → definition.IsPlain →
      ∃ again, ofText definition.text = .ok again ∧ again.Agrees definition := by
  intro hall
  have hdefinition : ofText
      "STA:0xH0=1::CAN:::SUB:::VAL:B0xH2*~0xL3$V-5::DES:Fast::TTL:Hill:" =
        .ok (hillDefinition (some "Hill:") (some "Fast")) := by
    with_unfolding_all rfl
  obtain ⟨again, hagain, -⟩ := hall _ _ hdefinition (isPlain_hillDefinition _ _)
  have hfails : (ofText (hillDefinition (some "Hill:") (some "Fast")).text).isOk = false := by
    decide +kernel
  rw [hagain] at hfails
  cases hfails

end AchievementLogic.Leaderboard.Definition
