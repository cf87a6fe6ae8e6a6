import AchievementLogic.Leaderboard.Definition
import AchievementLogic.Proofs.Score.InPlace
import Mathlib.Logic.Function.Basic

/-!
# Sections of a definition

A definition is read one section after the other.  A section is a tag and a body, and what the body
is read as is put where the tag says; so a text of sections gives all that they contain, if each body
is read up to the two colons in front of the next section, or up to the end of the text.
-/

namespace AchievementLogic.Leaderboard

open Text Reader

/-! ## Tags -/

inductive Tag
  | start
  | cancel
  | submit
  | value
  | progress
  | format
  | title
  | description
deriving DecidableEq, Repr

namespace Tag

def mark : Tag → String
  | start => "STA:"
  | cancel => "CAN:"
  | submit => "SUB:"
  | value => "VAL:"
  | progress => "PRO:"
  | format => "FOR:"
  | title => "TTL:"
  | description => "DES:"

/-- What a section with this tag contains. -/
def Content : Tag → Type
  | start | cancel | submit => Trigger
  | value | progress => Formula
  | format => Format
  | title | description => String

def read : (tag : Tag) → Reader tag.Content
  | start | cancel | submit => Sections.body Trigger.read
  | value | progress => Sections.body Formula.read
  | format => do return Format.ofName (← Sections.readText)
  | title | description => Sections.readText

def contentOf : (tag : Tag) → String → Except ParseError tag.Content
  | start, body | cancel, body | submit, body => Trigger.read.readAll body
  | value, body | progress, body => Formula.read.readAll body
  | format, body => .ok (Format.ofName body)
  | title, body | description, body => .ok body

end Tag

def Sections.found? (sections : Sections) : (tag : Tag) → Option tag.Content
  | .start => sections.start?
  | .cancel => sections.cancel?
  | .submit => sections.submit?
  | .value => sections.value?
  | .progress => sections.progress?
  | .format => sections.format?
  | .title => sections.title?
  | .description => sections.description?

def Sections.put (sections : Sections) : (tag : Tag) → tag.Content → Sections
  | .start, content => { sections with start? := some content }
  | .cancel, content => { sections with cancel? := some content }
  | .submit, content => { sections with submit? := some content }
  | .value, content => { sections with value? := some content }
  | .progress, content => { sections with progress? := some content }
  | .format, content => { sections with format? := some content }
  | .title, content => { sections with title? := some content }
  | .description, content => { sections with description? := some content }

def Definition.content? (definition : Definition) : (tag : Tag) → Option tag.Content
  | .start => some definition.start
  | .cancel => some definition.cancel
  | .submit => some definition.submit
  | .value => some definition.value
  | .progress => definition.progress?
  | .format => definition.format?
  | .title => definition.title?
  | .description => definition.description?

theorem Sections.found?_put (sections : Sections) (tag : Tag) (content : tag.Content) :
    (sections.put tag content).found? = Function.update sections.found? tag (some content) := by
  funext other
  cases tag <;> cases other <;> rfl

/-- A definition takes over what was found under each of its tags. -/
theorem Sections.content?_of_toDefinition {sections : Sections} {definition : Definition}
    (hdefinition : sections.toDefinition = .ok definition) :
    definition.content? = sections.found? := by
  obtain ⟨start?, cancel?, submit?, value?, progress?, format?, title?, description?⟩ := sections
  cases start? with
  | none => cases hdefinition
  | some start =>
      cases cancel? with
      | none => cases hdefinition
      | some cancel =>
          cases submit? with
          | none => cases hdefinition
          | some submit =>
              cases value? with
              | none => cases hdefinition
              | some value =>
                  cases hdefinition
                  funext tag
                  cases tag <;> rfl

/-- A format is named by free text before it is put. -/
theorem Sections.put_format (sections : Sections) :
    (do return sections.put .format (← Tag.format.read) : Reader Sections) =
      (do return { sections with format? := some (Format.ofName (← Sections.readText)) }) :=
  bind_assoc Sections.readText (fun name => pure (Format.ofName name))
    fun format => pure (sections.put .format format)

/-- The tags that no definition lacks. -/
def neededTags : List Tag := [.start, .cancel, .submit, .value]

/-- Nothing but the tags that are needed can be missed. -/
theorem Sections.exists_toDefinition {sections : Sections}
    (hneeded : ∀ tag ∈ neededTags, (sections.found? tag).isSome) :
    ∃ definition, sections.toDefinition = .ok definition ∧
      definition.content? = sections.found? := by
  have hstart := hneeded .start (by decide)
  have hcancel := hneeded .cancel (by decide)
  have hsubmit := hneeded .submit (by decide)
  have hvalue := hneeded .value (by decide)
  obtain ⟨start?, cancel?, submit?, value?, progress?, format?, title?, description?⟩ := sections
  obtain ⟨start, rfl⟩ := Option.isSome_iff_exists.mp hstart
  obtain ⟨cancel, rfl⟩ := Option.isSome_iff_exists.mp hcancel
  obtain ⟨submit, rfl⟩ := Option.isSome_iff_exists.mp hsubmit
  obtain ⟨value, rfl⟩ := Option.isSome_iff_exists.mp hvalue
  let definition : Definition :=
    { start, cancel, submit, value, progress?, format?, title?, description? }
  exact ⟨definition, rfl, content?_of_toDefinition rfl⟩

/-! ## Sections -/

/-- A section of a text.  Its tag may be written in letters of either case. -/
structure Section where
  tag : Tag
  letters : String
  body : String
  spelled : letters.toUpper = tag.mark

namespace Section

variable (piece : Section)

def text : String := piece.letters ++ piece.body

theorem toUpper_mark (tag : Tag) : tag.mark.toUpper = tag.mark := by
  cases tag <;> decide +kernel

def written (tag : Tag) (body : String) : Section := ⟨tag, tag.mark, body, toUpper_mark tag⟩

/-- A letter whose upper case is ASCII is ASCII itself. -/
theorem toNat_lt_of_toUpper {letter : Char} (hupper : letter.toUpper.toNat < 128) :
    letter.toNat < 128 := by
  by_contra hlarge
  have hsame : letter.toUpper = letter := by
    apply dif_neg
    intro hletter
    have hle : letter.toNat ≤ 122 := hletter.2
    omega
  rw [hsame] at hupper
  exact hlarge hupper

theorem toUpper_toList : piece.letters.toList.map Char.toUpper = piece.tag.mark.toList := by
  rw [← piece.spelled, String.toUpper, String.toList_map]

theorem isAscii_letters : ∀ letter ∈ piece.letters.toList, letter.toNat < 128 := by
  intro letter hmem
  apply toNat_lt_of_toUpper
  have hupper : letter.toUpper ∈ piece.tag.mark.toList := by
    rw [← piece.toUpper_toList]
    exact List.mem_map_of_mem hmem
  have hmark (tag : Tag) : tag.mark.toList.all (fun letter => letter.toNat < 128) = true := by
    cases tag <;> rfl
  exact of_decide_eq_true (List.all_eq_true.mp (hmark piece.tag) _ hupper)

theorem length_bytesOf_letters : (bytesOf piece.letters).length = 4 := by
  have hbytes := bytesOf_ofList piece.isAscii_letters
  rw [String.ofList_toList] at hbytes
  have hlength := congrArg List.length piece.toUpper_toList
  rw [hbytes, List.length_map, ← List.length_map (f := Char.toUpper), hlength]
  cases piece.tag <;> rfl

theorem tagAt_letters (bytes : List UInt8) (position : Nat) :
    Sections.tagAt ⟨bytesOf piece.letters ++ bytes, position⟩ = piece.letters := by
  have hlength := piece.length_bytesOf_letters
  have hlong : 4 ≤ (bytesOf piece.letters ++ bytes).length := by
    rw [List.length_append, hlength]
    exact Nat.le_add_right _ _
  rw [Sections.tagAt, if_pos hlong, ← hlength, List.take_left, ofBytes?_bytesOf, Option.getD_some]

/-- The tag decides how the body is read, and where what it contains is put. -/
theorem run_readOne (sections : Sections) (bytes : List UInt8) (position : Nat) :
    sections.readOne.run ⟨bytesOf piece.letters ++ bytes, position⟩ =
      (do return sections.put piece.tag (← piece.tag.read) : Reader Sections).run
        ⟨bytes, position + 4⟩ := by
  have hskip : Scan.skip ⟨bytesOf piece.letters ++ bytes, position⟩ 4 = ⟨bytes, position + 4⟩ := by
    rw [← piece.length_bytesOf_letters, Scan.skip_append]
  rw [Sections.readOne, run_bind_of_ok (EStateM.run_get _), piece.tagAt_letters]
  simp only
  rw [run_bind_of_ok (run_skip 4 _), hskip, piece.spelled]
  cases piece.tag with
  | format =>
      rw [Sections.put_format]
      rfl
  | _ => rfl

end Section

/-! ## Bodies in place -/

/-- The text after a section is empty, or it begins with two colons. -/
def EndsSection (rest : String) : Prop := rest = "" ∨ ∃ more, rest = "::" ++ more

section

variable {rest : String}

theorem endsSection_of_closing {closing : String} (hclosing : closing = "" ∨ closing = "::") :
    EndsSection closing :=
  hclosing.imp_right fun hcolons => ⟨"", hcolons⟩

theorem bytesOf_colons (more : String) : bytesOf ("::" ++ more) = 58 :: 58 :: bytesOf more := by
  rw [bytesOf_append]
  rfl

theorem EndsSection.followedBy (hrest : EndsSection rest) : FollowedBy [':'] (bytesOf rest) := by
  rcases hrest with rfl | ⟨more, rfl⟩
  · exact .nil _
  · rw [bytesOf_colons]
    exact .cons (by decide) _

theorem EndsSection.run_expectEnd (hrest : EndsSection rest) (position : Nat) :
    Sections.expectEnd.run ⟨bytesOf rest, position⟩ = .ok () ⟨bytesOf rest, position⟩ := by
  rcases hrest with rfl | ⟨more, rfl⟩
  · rfl
  · have hcolons : Scan.startsWith ⟨bytesOf ("::" ++ more), position⟩ "::" = true := by
      rw [Scan.startsWith, Scan.rest_bytesOf, String.toList_append, List.isPrefixOf_iff_prefix]
      exact List.prefix_append _ _
    rw [Sections.expectEnd, run_bind_of_ok (EStateM.run_get _), if_pos hcolons]
    rfl

theorem EndsSection.readsInPlace_body {Value : Type} {reader : Reader Value} {bytes : List UInt8}
    {value : Value} (hrest : EndsSection rest)
    (hreads : ReadsInPlace reader bytes value (bytesOf rest)) :
    ReadsInPlace (Sections.body reader) bytes value (bytesOf rest) := by
  intro position
  obtain ⟨later, hrun⟩ := hreads position
  refine ⟨later, ?_⟩
  rw [Sections.body, run_bind_of_ok hrun, run_bind_of_ok (hrest.run_expectEnd later)]
  rfl

/-- Free text goes on to the first two colons in a row. -/
theorem bytesBeforeColons_append {bytes rest : List UInt8} (hinside : ¬ [58, 58] <:+: bytes)
    (hlast : bytes.getLast? = some 58 → rest = []) (hrest : rest = [] ∨ [58, 58] <+: rest) :
    Sections.bytesBeforeColons (bytes ++ rest) = bytes := by
  induction bytes with
  | nil =>
      rcases hrest with rfl | ⟨more, rfl⟩
      · rfl
      · rfl
  | cons head tail ih =>
      have htail : Sections.bytesBeforeColons (tail ++ rest) = tail := by
        apply ih
        · exact fun hpair => hinside (hpair.trans (List.suffix_cons _ _).isInfix)
        · intro hcolon
          apply hlast
          rw [List.getLast?_cons, hcolon]
          rfl
      have hgoes : ¬ (head = 58 ∧ (tail ++ rest).head? = some 58) := by
        rintro ⟨rfl, hnext⟩
        cases tail with
        | nil =>
            rw [hlast rfl] at hnext
            cases hnext
        | cons second later =>
            obtain rfl : second = 58 := Option.some.inj hnext
            exact hinside (List.prefix_append [58, 58] later).isInfix
      rw [List.cons_append, Sections.bytesBeforeColons, if_neg (by simpa using hgoes), htail]

/-- Free text without two colons in a row is read up to its end.  A colon at its end would make a
pair with those behind it. -/
theorem EndsSection.readsInPlace_readText {body : String} (hrest : EndsSection rest)
    (hinside : ¬ HasColons body) (hlast : EndsInColon body → rest = "") :
    ReadsInPlace Sections.readText (bytesOf body) body (bytesOf rest) := by
  have hbytes : Sections.bytesBeforeColons (bytesOf body ++ bytesOf rest) = bytesOf body := by
    apply bytesBeforeColons_append
    · exact fun hpair => hinside (hasColons_of_infix_bytesOf hpair)
    · intro hcolon
      rw [hlast (endsInColon_iff.mpr hcolon)]
      rfl
    · rcases hrest with rfl | ⟨more, rfl⟩
      · exact .inl rfl
      · rw [bytesOf_colons]
        exact .inr (List.prefix_append [58, 58] _)
  intro position
  refine ⟨position + (bytesOf body).length, ?_⟩
  rw [Sections.readText, run_bind_of_ok (EStateM.run_get _)]
  simp only [hbytes]
  rw [run_bind_of_ok (run_skip _ _), Scan.skip_append, ofBytes?_bytesOf]
  rfl

end

/-! ## Contents -/

/-- Whether the body with this tag is free text, which only its delimiters end. -/
def Tag.isFree : Tag → Bool
  | format | title | description => true
  | _ => false

/-- A body says in its place what it says on its own; free text has to be told from what follows. -/
theorem Tag.readsInPlace_read {tag : Tag} {body rest : String} {content : tag.Content}
    (hrest : EndsSection rest) (hcontent : tag.contentOf body = .ok content)
    (hdelimited : tag.isFree → ¬ HasColons body ∧ (EndsInColon body → rest = "")) :
    ReadsInPlace tag.read (bytesOf body) content (bytesOf rest) := by
  have htrigger {trigger : Trigger} (hread : Trigger.read.readAll body = .ok trigger) :
      ReadsInPlace (Sections.body Trigger.read) (bytesOf body) trigger (bytesOf rest) :=
    hrest.readsInPlace_body
      (CarriesOver.readAll (fun _ => Trigger.carriesOver_read hrest.followedBy) hread)
  have hformula {formula : Formula} (hread : Formula.read.readAll body = .ok formula) :
      ReadsInPlace (Sections.body Formula.read) (bytesOf body) formula (bytesOf rest) :=
    hrest.readsInPlace_body
      (CarriesOver.readAll (fun _ => Formula.carriesOver_read hrest.followedBy) hread)
  have htext (hfree : tag.isFree) : ReadsInPlace Sections.readText (bytesOf body) body (bytesOf rest) :=
    hrest.readsInPlace_readText (hdelimited hfree).1 (hdelimited hfree).2
  cases tag with
  | start | cancel | submit => exact htrigger hcontent
  | value | progress => exact hformula hcontent
  | format =>
      have hformat : ReadsInPlace (do return Format.ofName (← Sections.readText))
          (bytesOf body) (Format.ofName body) (bytesOf rest) := by
        intro position
        obtain ⟨later, hrun⟩ := htext rfl position
        refine ⟨later, ?_⟩
        rw [run_bind_of_ok hrun]
        rfl
      obtain rfl := Except.ok.inj hcontent
      exact hformat
  | title | description =>
      obtain rfl := Except.ok.inj hcontent
      exact htext rfl

instance : (tag : Tag) → Inhabited tag.Content
  | .start | .cancel | .submit => ⟨Trigger.ofGroups []⟩
  | .value | .progress => ⟨(⟨[]⟩ : Formula)⟩
  | .format => ⟨Format.value⟩
  | .title | .description => ⟨""⟩

namespace Section

/-- The body means something on its own. -/
def IsAccepted (piece : Section) : Prop := ∃ content, piece.tag.contentOf piece.body = .ok content

/-- What the body means on its own, if it means anything. -/
def content (piece : Section) : piece.tag.Content :=
  (piece.tag.contentOf piece.body).toOption.getD default

theorem content_eq {piece : Section} {content : piece.tag.Content}
    (hcontent : piece.tag.contentOf piece.body = .ok content) : piece.content = content := by
  rw [Section.content, hcontent]
  rfl

theorem IsAccepted.contentOf_eq {piece : Section} (haccepted : piece.IsAccepted) :
    piece.tag.contentOf piece.body = .ok piece.content := by
  obtain ⟨content, hcontent⟩ := haccepted
  rw [content_eq hcontent, hcontent]

/-- The body can stand in front of `rest`: if it is free text, its end can be told there. -/
structure StandsBefore (piece : Section) (rest : String) : Prop where
  accepted : piece.IsAccepted
  delimited : piece.tag.isFree →
    ¬ HasColons piece.body ∧ (EndsInColon piece.body → rest = "")

theorem StandsBefore.readsInPlace {piece : Section} {rest : String}
    (hstands : piece.StandsBefore rest) (hrest : EndsSection rest) :
    ReadsInPlace piece.tag.read (bytesOf piece.body) piece.content (bytesOf rest) :=
  Tag.readsInPlace_read hrest hstands.accepted.contentOf_eq hstands.delimited

end Section

/-! ## Lists of sections -/

/-- What comes after a section: further ones, and at the end what closes the text. -/
def textAfter (closing : String) (pieces : List Section) : String :=
  String.join (pieces.map fun piece => "::" ++ piece.text) ++ closing

theorem textAfter_cons (closing : String) (piece : Section) (later : List Section) :
    textAfter closing (piece :: later) = "::" ++ (piece.text ++ textAfter closing later) := by
  simp [textAfter, String.append_assoc]

theorem textAfter_append (closing : String) (pieces later : List Section) :
    textAfter closing (pieces ++ later) = textAfter (textAfter closing later) pieces := by
  simp [textAfter, String.append_assoc]

/-- Sections joined by two colons. -/
theorem intercalate_text (closing : String) (piece : Section) (later : List Section) :
    "::".intercalate ((piece :: later).map Section.text) ++ closing =
      piece.text ++ textAfter closing later := by
  induction later generalizing piece with
  | nil => simp [textAfter]
  | cons second later ih =>
      rw [textAfter_cons, ← ih second, List.map_cons, List.map_cons, String.intercalate_cons_cons]
      simp only [String.append_assoc]

theorem textAfter_eq (closing : String) (pieces : List Section) :
    textAfter closing pieces = textAfter "" pieces ++ closing := by
  simp [textAfter]

theorem endsSection_textAfter {closing : String} (hclosing : EndsSection closing)
    (pieces : List Section) : EndsSection (textAfter closing pieces) := by
  cases pieces with
  | nil => simpa [textAfter] using hclosing
  | cons piece later =>
      rw [textAfter_cons]
      exact .inr ⟨_, rfl⟩

/-- Every section can stand in front of those after it. -/
def AllStand (closing : String) : List Section → Prop
  | [] => True
  | piece :: later => piece.StandsBefore (textAfter closing later) ∧ AllStand closing later

theorem allStand_append {closing : String} {pieces later : List Section}
    (hpieces : AllStand (textAfter closing later) pieces) (hlater : AllStand closing later) :
    AllStand closing (pieces ++ later) := by
  induction pieces with
  | nil => exact hlater
  | cons piece others ih =>
      have hpiece := hpieces.1
      rw [← textAfter_append] at hpiece
      exact ⟨hpiece, ih hpieces.2⟩

def Sections.putAll (sections : Sections) (pieces : List Section) : Sections :=
  pieces.foldl (fun sections piece => sections.put piece.tag piece.content) sections

section

variable {pieces : List Section}

/-- Sections with other tags leave what was found under a tag. -/
theorem Sections.found?_putAll_of_notMem (sections : Sections) {tag : Tag}
    (hmissing : tag ∉ pieces.map Section.tag) :
    (sections.putAll pieces).found? tag = sections.found? tag := by
  induction pieces generalizing sections with
  | nil => rfl
  | cons piece later ih =>
      rw [List.map_cons, List.mem_cons, not_or] at hmissing
      have hother := Function.update_of_ne hmissing.1 (some piece.content) sections.found?
      rw [← sections.found?_put] at hother
      exact (ih _ hmissing.2).trans hother

/-- Of sections with distinct tags each is found with its own content. -/
theorem Sections.found?_putAll_of_mem (sections : Sections)
    (hdistinct : (pieces.map Section.tag).Nodup) {piece : Section} (hmem : piece ∈ pieces) :
    (sections.putAll pieces).found? piece.tag = some piece.content := by
  induction pieces generalizing sections with
  | nil => cases hmem
  | cons first later ih =>
      rw [List.map_cons, List.nodup_cons] at hdistinct
      rcases List.mem_cons.mp hmem with rfl | hlater
      · have hself := Function.update_self piece.tag (some piece.content) sections.found?
        rw [← sections.found?_put] at hself
        exact (Sections.found?_putAll_of_notMem _ hdistinct.1).trans hself
      · exact ih _ hdistinct.2 hlater

end

theorem Section.run_readOne_of_readsInPlace {piece : Section} {rest : String}
    (hreads : ReadsInPlace piece.tag.read (bytesOf piece.body) piece.content (bytesOf rest))
    (sections : Sections) (position : Nat) :
    ∃ later, sections.readOne.run ⟨bytesOf (piece.text ++ rest), position⟩ =
      .ok (sections.put piece.tag piece.content) ⟨bytesOf rest, later⟩ := by
  obtain ⟨later, hrun⟩ := hreads (position + 4)
  refine ⟨later, ?_⟩
  rw [Section.text, String.append_assoc, bytesOf_append, bytesOf_append, piece.run_readOne,
    run_bind_of_ok hrun]
  rfl

/-- After a section two colons are stepped over, and unless the text ends there reading goes on. -/
def Sections.goOn (sections : Sections) (rounds : Nat) : Reader Sections := do
  Reader.skip 2
  if (← get).atEnd then return sections
  else sections.readFrom rounds

theorem Section.run_readFrom_succ {piece : Section} {rest : String}
    (hreads : ReadsInPlace piece.tag.read (bytesOf piece.body) piece.content (bytesOf rest))
    (sections : Sections) (rounds position : Nat) :
    ∃ later, (sections.readFrom (rounds + 1)).run ⟨bytesOf (piece.text ++ rest), position⟩ =
      ((sections.put piece.tag piece.content).goOn rounds).run ⟨bytesOf rest, later⟩ := by
  obtain ⟨later, hrun⟩ := piece.run_readOne_of_readsInPlace hreads sections position
  refine ⟨later, ?_⟩
  rw [Sections.readFrom, run_bind_of_ok hrun]
  rfl

/-- Where more comes after two colons, it is read as the next section. -/
theorem Sections.run_goOn_colons (sections : Sections) {more : String} (hmore : more ≠ "")
    (rounds position : Nat) :
    (sections.goOn rounds).run ⟨bytesOf ("::" ++ more), position⟩ =
      (sections.readFrom rounds).run ⟨bytesOf more, position + 2⟩ := by
  have hskip : Scan.skip ⟨bytesOf ("::" ++ more), position⟩ 2 = ⟨bytesOf more, position + 2⟩ := by
    rw [bytesOf_colons]
    rfl
  have hgoes : Scan.atEnd ⟨bytesOf more, position + 2⟩ = false := by
    cases hbytes : bytesOf more with
    | nil =>
        have hsame := ofBytes?_bytesOf more
        rw [hbytes] at hsame
        exact absurd (Option.some.inj hsame).symm hmore
    | cons => rfl
  rw [Sections.goOn, run_bind_of_ok (run_skip 2 _), run_bind_of_ok (EStateM.run_get _), hskip,
    hgoes]
  rfl

/-- Sections that can stand in their places are read, up to what closes the text. -/
theorem run_readFrom {closing : String} (hclosing : EndsSection closing) {piece : Section}
    {later : List Section} (hstand : AllStand closing (piece :: later)) (rounds : Nat)
    (sections : Sections) (position : Nat) :
    ∃ place, (sections.readFrom (rounds + (piece :: later).length)).run
        ⟨bytesOf (piece.text ++ textAfter closing later), position⟩ =
      ((sections.putAll (piece :: later)).goOn rounds).run ⟨bytesOf closing, place⟩ := by
  induction later generalizing piece sections position with
  | nil =>
      have hreads := hstand.1.readsInPlace (endsSection_textAfter hclosing [])
      have hrun := piece.run_readFrom_succ hreads sections rounds position
      rwa [show textAfter closing [] = closing by simp [textAfter]] at hrun ⊢
  | cons second later ih =>
      have hreads := hstand.1.readsInPlace (endsSection_textAfter hclosing (second :: later))
      obtain ⟨between, hrun⟩ := piece.run_readFrom_succ hreads sections
        (rounds + (second :: later).length) position
      obtain ⟨place, hlater⟩ := ih hstand.2 (sections.put piece.tag piece.content) (between + 2)
      refine ⟨place, ?_⟩
      have hmore : second.text ++ textAfter closing later ≠ "" := by
        intro hempty
        have hlength := congrArg (fun text => (bytesOf text).length) hempty
        simp only [Section.text, bytesOf_append, List.length_append,
          second.length_bytesOf_letters] at hlength
        exact absurd hlength (by rw [show (bytesOf "").length = 0 from rfl]; omega)
      rw [List.length_cons, ← Nat.add_assoc, hrun, textAfter_cons,
        Sections.run_goOn_colons _ hmore, hlater]
      rfl

/-! ## Definitions -/

section

variable {piece : Section} {later : List Section} {closing : String}

/-- A text has more bytes than sections. -/
theorem exists_rounds (piece : Section) (later : List Section) (closing : String) :
    ∃ rounds, (bytesOf (piece.text ++ textAfter closing later)).length + 1 =
      rounds + 1 + (piece :: later).length := by
  have hlength : (piece :: later).length ≤
      (bytesOf (piece.text ++ textAfter closing later)).length := by
    induction later generalizing piece with
    | nil =>
        simp only [Section.text, bytesOf_append, List.length_append, piece.length_bytesOf_letters,
          List.length_singleton]
        omega
    | cons second later ih =>
        have hothers := ih second
        rw [bytesOf_append, textAfter_cons, bytesOf_colons]
        simp only [List.length_append, List.length_cons] at hothers ⊢
        omega
  exact ⟨(bytesOf (piece.text ++ textAfter closing later)).length - (piece :: later).length,
    by omega⟩

/-- Each section says in the definition what it says on its own, and nothing else is in it. -/
theorem Definition.ofText_of_allStand (hclosing : closing = "" ∨ closing = "::")
    (hstand : AllStand closing (piece :: later))
    (hink : EndsInInk (piece.text ++ textAfter closing later))
    (hdistinct : ((piece :: later).map Section.tag).Nodup)
    (hneeded : ∀ tag ∈ neededTags, tag ∈ (piece :: later).map Section.tag) :
    ∃ definition, Definition.ofText (piece.text ++ textAfter closing later) = .ok definition ∧
      (∀ member ∈ piece :: later, definition.content? member.tag = some member.content) ∧
      ∀ tag ∉ (piece :: later).map Section.tag, definition.content? tag = none := by
  obtain ⟨rounds, hrounds⟩ := exists_rounds piece later closing
  obtain ⟨place, hrun⟩ := run_readFrom (endsSection_of_closing hclosing) hstand (rounds + 1) {} 0
  have hend : ∃ last, (Sections.goOn (Sections.putAll {} (piece :: later)) (rounds + 1)).run
      ⟨bytesOf closing, place⟩ = .ok (Sections.putAll {} (piece :: later)) last := by
    rcases hclosing with rfl | rfl
    · exact ⟨_, rfl⟩
    · exact ⟨_, rfl⟩
  obtain ⟨last, hend⟩ := hend
  have hfound (member : Section) (hmem : member ∈ piece :: later) :=
    Sections.found?_putAll_of_mem {} hdistinct hmem
  have hmissing (tag : Tag) (hnot : tag ∉ (piece :: later).map Section.tag) :
      (Sections.putAll {} (piece :: later)).found? tag = none := by
    rw [Sections.found?_putAll_of_notMem {} hnot]
    cases tag <;> rfl
  obtain ⟨definition, hdefinition, hcontent⟩ : ∃ definition,
      (Sections.putAll {} (piece :: later)).toDefinition = .ok definition ∧
        definition.content? = (Sections.putAll {} (piece :: later)).found? := by
    apply Sections.exists_toDefinition
    intro tag hneed
    obtain ⟨member, hmem, rfl⟩ := List.mem_map.mp (hneeded tag hneed)
    rw [hfound member hmem]
    rfl
  refine ⟨definition, ?_, ?_, ?_⟩
  · rw [Definition.ofText, trimLineEnd_eq_self_iff.mpr hink]
    simp only [Scan.ofString, hrounds, hrun, hend, hdefinition]
  · rw [hcontent]
    exact hfound
  · rw [hcontent]
    exact hmissing

end

end AchievementLogic.Leaderboard
