import AchievementLogic.Proofs.Memory.Assembling
import AchievementLogic.Proofs.Memory.ByteStore

/-!
# Reading back what was written to a range

A range is read from one block, but its bytes are written one by one, each to the block that has it.
What is read is what was written exactly if all the bytes go to one block: that block then has the
whole range, and no earlier one has the first byte of it.  Where bytes go depends on where blocks
start and stop, and not on what is in them.
-/

namespace AchievementLogic

/-! ## Numbers as bytes -/

theorem littleEndian_lt (bytes : List UInt8) : littleEndian bytes < 256 ^ bytes.length := by
  have hsum := littleEndian_add_complement bytes
  omega

/-- Bytes come back from the number they make up. -/
theorem littleEndianBytes_littleEndian (bytes : List UInt8) :
    littleEndianBytes bytes.length (littleEndian bytes) = bytes := by
  induction bytes with
  | nil => rfl
  | cons byte bytes ih =>
      have hfirst : UInt8.ofNat (byte.toNat + 256 * littleEndian bytes) = byte := by
        rw [← UInt8.toNat_inj, UInt8.toNat_ofNat']
        have hbyte := byte.toNat_lt
        omega
      have hrest : (byte.toNat + 256 * littleEndian bytes) / 256 = littleEndian bytes := by
        have hbyte := byte.toNat_lt
        omega
      rw [List.length_cons, littleEndian_cons, littleEndianBytes, hfirst, hrest, ih]

/-! ## Ranges of a block -/

namespace Block

variable {block : Block} {address count : ℕ}

def Covers (block : Block) (address count : ℕ) : Prop :=
  block.start ≤ address ∧ address + count ≤ block.stop

instance (block : Block) (address count : ℕ) : Decidable (block.Covers address count) :=
  inferInstanceAs (Decidable (_ ∧ _))

/-- A block has a range just if it has every byte of it. -/
theorem covers_iff (hcount : 0 < count) :
    block.Covers address count ↔
      ∀ offset < count, (block.byteAt? (address + offset)).isSome = true := by
  simp only [isSome_byteAt?, holds_iff, Covers]
  constructor
  · intro hcovers offset hoffset
    omega
  · intro hbytes
    have hfirst := hbytes 0 hcount
    have hlast := hbytes (count - 1) (by omega)
    omega

theorem slice?_eq (hcount : 0 < count) (block : Block) (address : ℕ) :
    block.slice? address count =
      if block.Covers address count then
        some ((block.bytes.drop (address - block.start)).take count)
      else none := by
  have hcovers : (block.holds address && address - block.start + count ≤ block.bytes.length) = true ↔
      block.Covers address count := by
    rw [Bool.and_eq_true, holds_iff, decide_eq_true_eq, Covers, stop]
    omega
  simp only [slice?, hcovers]

/-- A range is compared byte by byte, at its addresses in the block. -/
theorem slice?_eq_some_iff (hcount : 0 < count) {bytes : List UInt8} :
    block.slice? address count = some bytes ↔ bytes.length = count ∧
      ∀ offset < count, block.byteAt? (address + offset) = bytes[offset]? := by
  rw [slice?_eq hcount]
  split
  case isTrue hcovers =>
    obtain ⟨hstart, hstop⟩ := hcovers
    rw [stop] at hstop
    have hlength : ((block.bytes.drop (address - block.start)).take count).length = count := by
      rw [List.length_take, List.length_drop]
      omega
    have hbyte : ∀ offset < count, block.byteAt? (address + offset) =
        ((block.bytes.drop (address - block.start)).take count)[offset]? := by
      intro offset hoffset
      have hplace : address + offset - block.start = address - block.start + offset := by omega
      rw [byteAt?, if_pos (by omega), List.getElem?_take_of_lt hoffset, List.getElem?_drop, hplace]
    rw [Option.some_inj]
    constructor
    · rintro rfl
      exact ⟨hlength, hbyte⟩
    · rintro ⟨hsame, hbytes⟩
      apply List.ext_getElem?
      intro offset
      by_cases hoffset : offset < count
      · rw [← hbyte offset hoffset, hbytes offset hoffset]
      · rw [List.getElem?_eq_none (by omega), List.getElem?_eq_none (by omega)]
  case isFalse hnot =>
    constructor
    · intro hnone
      cases hnone
    · rintro ⟨hlength, hbytes⟩
      refine absurd ((covers_iff hcount).mpr fun offset hoffset => ?_) hnot
      rw [hbytes offset hoffset, isSome_getElem?, hlength]
      exact hoffset

theorem slice?_eq_none_iff_not_covers (hcount : 0 < count) :
    block.slice? address count = none ↔ ¬block.Covers address count := by
  rw [slice?_eq hcount]
  split <;> simp_all

theorem slice?_eq_none_iff (hcount : 0 < count) :
    block.slice? address count = none ↔
      ∃ offset < count, block.byteAt? (address + offset) = none := by
  rw [slice?_eq_none_iff_not_covers hcount, covers_iff hcount]
  simp only [not_forall, Bool.not_eq_true, Option.isSome_eq_false_iff, Option.isNone_iff_eq_none,
    exists_prop]

end Block

namespace Image

variable {image left right : Image} {address count : ℕ}

theorem cell?_slice?_eq_none_iff (hcount : 0 < count) (index : ℕ) :
    image.blocks[index]?.bind (·.slice? address count) = none ↔
      ∃ offset < count, image.cell? index (address + offset) = none := by
  unfold cell?
  cases image.blocks[index]? with
  | none => simpa using ⟨0, hcount⟩
  | some block => exact Block.slice?_eq_none_iff hcount

/-- A range is read in the first block that has all of its bytes. -/
theorem read?_eq_some_iff (hvalid : image.valid = true) (hcount : 0 < count) {bytes : List UInt8} :
    image.read? address count = some bytes ↔ bytes.length = count ∧
      ∃ place, (∀ offset < count, image.cell? place (address + offset) = bytes[offset]?) ∧
        ∀ earlier < place, ∃ offset < count, image.cell? earlier (address + offset) = none := by
  have hplace (index : ℕ) : image.blocks[index]?.bind (·.slice? address count) = some bytes ↔
      bytes.length = count ∧
        ∀ offset < count, image.cell? index (address + offset) = bytes[offset]? := by
    unfold cell?
    cases image.blocks[index]? with
    | none =>
        simp only [Option.bind_none, reduceCtorEq, false_iff, not_and, not_forall]
        intro hlength
        refine ⟨0, hcount, fun hfirst => ?_⟩
        have hnone := List.getElem?_eq_none_iff.mp hfirst.symm
        omega
    | some block => exact Block.slice?_eq_some_iff hcount
  rw [read?, if_pos hvalid, findSome?_eq_some_iff_getElem?]
  simp only [hplace, cell?_slice?_eq_none_iff hcount]
  constructor
  · rintro ⟨place, ⟨hlength, hbytes⟩, hearlier⟩
    exact ⟨hlength, place, hbytes, hearlier⟩
  · rintro ⟨hlength, place, hbytes, hearlier⟩
    exact ⟨place, ⟨hlength, hbytes⟩, hearlier⟩

/-! ## Where bytes go -/

/-- The places of the blocks to which bytes go that are written one after the other. -/
def homes : Image → ℕ → List UInt8 → List ℕ
  | _, _, [] => []
  | image, address, value :: values =>
    image.home address :: (image.writeByte address value).homes (address + 1) values

theorem length_homes (image : Image) (address : ℕ) (values : List UInt8) :
    (image.homes address values).length = values.length := by
  induction values generalizing image address with
  | nil => rfl
  | cons value values ih => rw [homes, List.length_cons, ih, List.length_cons]

theorem cell?_writeBytes_of_lt (image : Image) {other : ℕ} (hbefore : other < address)
    (values : List UInt8) (index : ℕ) :
    (image.writeBytes address values).cell? index other = image.cell? index other := by
  induction values generalizing image address with
  | nil => rfl
  | cons value values ih =>
      rw [writeBytes, ih _ (Nat.lt_succ_of_lt hbefore), cell?_writeByte,
        if_neg (fun hboth => Nat.ne_of_lt hbefore hboth.2)]

/-- Each byte changes its cell in the block to which it goes. -/
theorem cell?_writeBytes (image : Image) (address : ℕ) (values : List UInt8) (index offset : ℕ) :
    (image.writeBytes address values).cell? index (address + offset) =
      if (image.homes address values)[offset]? = some index then values[offset]?
      else image.cell? index (address + offset) := by
  induction values generalizing image address offset with
  | nil => rfl
  | cons value values ih =>
      rw [writeBytes, homes]
      cases offset with
      | zero =>
          have hbefore : address < address + 1 := Nat.lt_succ_self address
          rw [Nat.add_zero address, cell?_writeBytes_of_lt _ hbefore, cell?_writeByte]
          simp only [List.getElem?_cons_zero, Option.some_inj, and_true, eq_comm]
      | succ offset =>
          have hlater : address + (offset + 1) = address + 1 + offset := by omega
          have hkept : (image.writeByte address value).cell? index (address + 1 + offset) =
              image.cell? index (address + 1 + offset) := by
            rw [cell?_writeByte, if_neg (fun hboth => absurd hboth.2 (by omega))]
          rw [hlater, ih, hkept, List.getElem?_cons_succ, List.getElem?_cons_succ]

/-! ### Where blocks start and stop -/

def extents (image : Image) : List (ℕ × ℕ) := image.blocks.map fun block => (block.start, block.stop)

theorem home_congr (hsame : left.extents = right.extents) (address : ℕ) :
    left.home address = right.home address := by
  have hhome (image : Image) : image.home address =
      (image.extents.findIdx? fun extent => extent.1 ≤ address && address < extent.2).getD
        (image.extents.findIdx fun extent => extent.2 == address) := by
    rw [extents, List.findIdx?_map, List.findIdx_map]
    rfl
  rw [hhome, hhome, hsame]

theorem isSome_cell?_congr (hsame : left.extents = right.extents) (index address : ℕ) :
    (left.cell? index address).isSome = (right.cell? index address).isSome := by
  have hcell (image : Image) : (image.cell? index address).isSome =
      image.extents[index]?.any fun extent => extent.1 ≤ address && address < extent.2 := by
    rw [extents, List.getElem?_map, cell?]
    cases image.blocks[index]? with
    | none => rfl
    | some block => exact block.isSome_byteAt? address
  rw [hcell, hcell, hsame]

/-- Writing a byte moves the stop of the block to which it goes, if that is not behind it yet. -/
theorem getElem?_extents_writeByte (image : Image) (address : ℕ) (value : UInt8) (index : ℕ) :
    (image.writeByte address value).extents[index]? =
      if index = image.home address then
        some ((image.extents[index]?.map Prod.fst).getD address,
          max ((image.extents[index]?.map Prod.snd).getD 0) (address + 1))
      else image.extents[index]? := by
  obtain ⟨written, hblocks, hstart, hstop, -⟩ := image.exists_written address value
  rw [extents, extents, List.getElem?_map, List.getElem?_map, hblocks]
  split
  case isTrue hindex =>
    rw [hindex, Option.map_some, hstart, hstop, Option.map_map, Option.map_map]
    rfl
  case isFalse => rfl

theorem extents_writeByte_congr (hsame : left.extents = right.extents) (address : ℕ)
    (value other : UInt8) :
    (left.writeByte address value).extents = (right.writeByte address other).extents := by
  apply List.ext_getElem?
  intro index
  rw [getElem?_extents_writeByte, getElem?_extents_writeByte, hsame, home_congr hsame]

/-- Where bytes go depends on how far the blocks extend and on the number of bytes, not on what any
of them are. -/
theorem extents_writeBytes_congr (hsame : left.extents = right.extents) (address : ℕ)
    {values others : List UInt8} (hlength : values.length = others.length) :
    (left.writeBytes address values).extents = (right.writeBytes address others).extents ∧
      left.homes address values = right.homes address others := by
  induction values generalizing left right address others with
  | nil =>
      obtain rfl := List.length_eq_zero_iff.mp hlength.symm
      exact ⟨hsame, rfl⟩
  | cons value values ih =>
      obtain ⟨other, others, rfl⟩ := List.exists_cons_of_length_eq_add_one hlength.symm
      have hnext := extents_writeByte_congr hsame address value other
      obtain ⟨hextents, hhomes⟩ := ih hnext (address + 1) (Nat.succ.inj hlength)
      rw [homes, homes, home_congr hsame, hhomes]
      exact ⟨hextents, rfl⟩

/-! ## Bytes that stay together -/

/-- The byte at an address goes to the block at a place, once that block reaches up to the address:
the block has it already and no earlier one does, or no block has it and no earlier one stops at
it. -/
structure TakesNext (image : Image) (place address : ℕ) : Prop where
  earlier : ∀ index < place, image.cell? index address = none
  own : (image.cell? place address).isSome = true ∨
    (∀ index, image.cell? index address = none) ∧
      ∀ other ∈ image.blocks.take place, other.stop ≠ address

/-- All bytes of a range go to the block that takes the first one. -/
def KeepsTogether (image : Image) (address count : ℕ) : Prop :=
  ∀ further, address < further → further < address + count →
    image.TakesNext (image.home address) further

/-- The block that a byte goes to takes the byte next, since it reaches up to the address. -/
theorem takesNext_home {block : Block}
    (hblock : image.blocks[image.home address]? = some block) :
    image.TakesNext (image.home address) address ∧ block.start ≤ address ∧ address ≤ block.stop := by
  have hearlier : ∀ index < image.home address, image.cell? index address = none :=
    fun _ hindex => cell?_eq_none_of_lt_home hindex
  rcases image.writeByte_cases address 0 with
    ⟨taken, htaken, hholds, -⟩ | ⟨taken, htaken, hstop, hfree, hopen, -⟩ | ⟨hlength, -⟩
  · cases hblock.symm.trans htaken
    obtain ⟨hstart, hstop⟩ := Block.holds_iff.mp hholds
    refine ⟨⟨hearlier, .inl ?_⟩, hstart, Nat.le_of_lt hstop⟩
    rw [cell?, hblock, Option.bind_some, Block.isSome_byteAt?, hholds]
  · cases hblock.symm.trans htaken
    refine ⟨⟨hearlier, .inr ⟨fun index => ?_, hopen⟩⟩, ?_, Nat.le_of_eq hstop.symm⟩
    · exact cell?_eq_none_iff.mpr fun other hother => hfree other (List.mem_of_getElem? hother)
    · exact hstop ▸ Nat.le_add_right _ _
  · rw [hlength, List.getElem?_eq_none (Nat.le_refl _)] at hblock
    cases hblock

/-- A byte has one block to go to: no earlier block that reaches up to the address takes it. -/
theorem TakesNext.le {place other : ℕ} (hplace : image.TakesNext place address)
    (hother : image.TakesNext other address) {block : Block}
    (hblock : image.blocks[other]? = some block) (hstart : block.start ≤ address)
    (hstop : address ≤ block.stop) : place ≤ other := by
  by_contra hlt
  rw [Nat.not_le] at hlt
  -- The earlier block has no byte at the address, so it stops there, and the later one does not
  -- take it.
  have hnone := hplace.earlier other hlt
  have hhas : ¬(image.cell? other address).isSome = true := by simp [hnone]
  obtain ⟨hfree, -⟩ := hother.own.resolve_left hhas
  obtain ⟨-, hopen⟩ := hplace.own.resolve_left (by simp [hfree])
  have hholds := cell?_eq_none_iff.mp hnone block hblock
  rw [← Bool.not_eq_true, Block.holds_iff] at hholds
  exact hopen block (mem_take_of_getElem? hblock hlt) (by omega)

/-- Among the blocks that reach up to an address, the byte goes to the one that takes it next. -/
theorem home_eq_iff_takesNext {place : ℕ} {block : Block} (hblock : image.blocks[place]? = some block)
    (hstart : block.start ≤ address) (hstop : address ≤ block.stop) :
    image.home address = place ↔ image.TakesNext place address := by
  constructor
  · rintro rfl
    exact (takesNext_home hblock).1
  · intro htakes
    have hhome : ∃ taken, image.blocks[image.home address]? = some taken := by
      rcases image.writeByte_cases address 0 with
        ⟨taken, htaken, -⟩ | ⟨taken, htaken, -⟩ | ⟨-, hfree, -⟩
      · exact ⟨taken, htaken⟩
      · exact ⟨taken, htaken⟩
      · obtain ⟨hholds, hstops⟩ := hfree block (List.mem_of_getElem? hblock)
        rw [← Bool.not_eq_true, Block.holds_iff] at hholds
        omega
    obtain ⟨taken, htaken⟩ := hhome
    obtain ⟨hnext, hfirst, hlast⟩ := takesNext_home htaken
    exact Nat.le_antisymm (hnext.le htakes hblock hstart hstop) (htakes.le hnext htaken hfirst hlast)

/-- The block that takes a byte has it afterwards, and reaches up to the next address. -/
theorem exists_home_writeByte (image : Image) (address : ℕ) (value : UInt8) :
    ∃ block, (image.writeByte address value).blocks[image.home address]? = some block ∧
      block.start ≤ address ∧ address + 1 ≤ block.stop := by
  obtain ⟨written, hblocks, -, -, hbytes⟩ := image.exists_written address value
  have hholds : written.holds address = true := by
    rw [← Block.isSome_byteAt?, hbytes, if_pos rfl, Option.isSome_some]
  obtain ⟨hstart, hstop⟩ := Block.holds_iff.mp hholds
  exact ⟨written, by rw [hblocks, if_pos rfl], hstart, hstop⟩

/-- A byte that went to a block does not change where another one goes next to it. -/
theorem takesNext_writeByte {other : ℕ} (hother : other ≠ address) (value : UInt8) :
    (image.writeByte address value).TakesNext (image.home address) other ↔
      image.TakesNext (image.home address) other := by
  obtain ⟨written, hblocks, -⟩ := image.exists_written address value
  have hcell (index : ℕ) :
      (image.writeByte address value).cell? index other = image.cell? index other := by
    rw [cell?_writeByte, if_neg (fun hboth => hother hboth.2)]
  have htake : (image.writeByte address value).blocks.take (image.home address) =
      image.blocks.take (image.home address) := by
    apply List.ext_getElem?
    intro index
    rw [List.getElem?_take, List.getElem?_take, hblocks]
    split
    case isTrue hlt => rw [if_neg (Nat.ne_of_lt hlt)]
    case isFalse => rfl
  constructor
  · rintro ⟨hearlier, hown⟩
    simp only [hcell, htake] at hearlier hown
    exact ⟨hearlier, hown⟩
  · rintro ⟨hearlier, hown⟩
    refine ⟨?_, ?_⟩
    · simpa only [hcell] using hearlier
    · simpa only [hcell, htake] using hown

/-- Bytes all go to one block just if it takes each of them next.  The induction on the bytes keeps
the block reaching up to the address of the next one. -/
theorem forall_mem_homes_iff {place : ℕ} {block : Block}
    (hblock : image.blocks[place]? = some block) (hstart : block.start ≤ address)
    (hstop : address ≤ block.stop) (values : List UInt8) :
    (∀ home ∈ image.homes address values, home = place) ↔
      ∀ further, address ≤ further → further < address + values.length →
        image.TakesNext place further := by
  -- What carries the induction is that the block at the place reaches up to the next address.
  induction values generalizing image address block with
  | nil =>
      simp only [homes, List.not_mem_nil, false_imp_iff, implies_true, List.length_nil, true_iff]
      omega
  | cons value values ih =>
      rw [homes, List.forall_mem_cons, home_eq_iff_takesNext hblock hstart hstop, List.length_cons]
      have hlater (hhome : image.home address = place) :
          (∀ home ∈ (image.writeByte address value).homes (address + 1) values, home = place) ↔
            ∀ further, address + 1 ≤ further → further < address + 1 + values.length →
              image.TakesNext place further := by
        subst hhome
        obtain ⟨written, hwritten, hfirst, hlast⟩ := image.exists_home_writeByte address value
        rw [ih hwritten (Nat.le_succ_of_le hfirst) hlast]
        refine forall_congr' fun further => imp_congr_right fun hfurther => ?_
        rw [takesNext_writeByte (Nat.ne_of_gt hfurther)]
      constructor
      · rintro ⟨htakes, hhomes⟩ further hfrom hto
        have hhome := (home_eq_iff_takesNext hblock hstart hstop).mpr htakes
        rcases Nat.eq_or_lt_of_le hfrom with rfl | hgt
        · exact htakes
        · exact (hlater hhome).mp hhomes further hgt (by omega)
      · intro htakes
        have hfirst := htakes address (Nat.le_refl _) (by omega)
        have hhome := (home_eq_iff_takesNext hblock hstart hstop).mpr hfirst
        refine ⟨hfirst, (hlater hhome).mpr fun further hfrom hto => ?_⟩
        exact htakes further (Nat.le_of_succ_le hfrom) (by omega)

/-- All bytes go to one block exactly if the range keeps together. -/
theorem forall_mem_homes_iff_keepsTogether (image : Image) (address : ℕ) (values : List UInt8) :
    (∀ home ∈ image.homes address values, home = image.home address) ↔
      image.KeepsTogether address values.length := by
  cases values with
  | nil =>
      simp only [homes, List.not_mem_nil, false_imp_iff, implies_true, KeepsTogether,
        List.length_nil, true_iff]
      omega
  | cons value values =>
      obtain ⟨written, hwritten, hfirst, hlast⟩ := image.exists_home_writeByte address value
      rw [homes, List.forall_mem_cons, forall_mem_homes_iff hwritten (Nat.le_succ_of_le hfirst) hlast,
        KeepsTogether, List.length_cons]
      have hlength : address + 1 + values.length = address + (values.length + 1) := by omega
      simp only [true_and, hlength]
      refine forall_congr' fun further => imp_congr_right fun hfurther => ?_
      rw [takesNext_writeByte (Nat.ne_of_gt hfurther)]

/-! ## Reading a range back -/

/-- Bytes that all went to one block are read from it. -/
theorem read?_writeBytes_of_keepsTogether (hvalid : image.valid = true) {values : List UInt8}
    (hcount : 0 < values.length) (htogether : image.KeepsTogether address values.length) :
    (image.writeBytes address values).read? address values.length = some values := by
  have hafter : (image.writeBytes address values).valid = true := by rw [valid_writeBytes, hvalid]
  have hhomes (offset : ℕ) (hoffset : offset < values.length) :
      (image.homes address values)[offset]? = some (image.home address) := by
    have hinside : offset < (image.homes address values).length := by rwa [length_homes]
    rw [List.getElem?_eq_getElem hinside]
    have hsame := (image.forall_mem_homes_iff_keepsTogether address values).mpr htogether
    exact congrArg some (hsame _ (List.getElem_mem hinside))
  rw [read?_eq_some_iff hafter hcount]
  refine ⟨rfl, image.home address, fun offset hoffset => ?_, fun earlier hearlier => ?_⟩
  · rw [cell?_writeBytes, if_pos (hhomes offset hoffset)]
  · refine ⟨0, hcount, ?_⟩
    rw [cell?_writeBytes, hhomes 0 hcount, if_neg (fun hsame => ?_)]
    · exact cell?_eq_none_of_lt_home hearlier
    · exact Nat.ne_of_gt hearlier (Option.some_inj.mp hsame)

/-- A range is read no later than in a block that has all of it. -/
theorem place_le_of_isSome {place other : ℕ} {bytes : List UInt8} (hlength : bytes.length = count)
    (hsame : ∀ index address, (left.cell? index address).isSome = (right.cell? index address).isSome)
    (hbytes : ∀ offset < count, left.cell? other (address + offset) = bytes[offset]?)
    (hearlier : ∀ earlier < place, ∃ offset < count, right.cell? earlier (address + offset) = none) :
    place ≤ other := by
  by_contra hlt
  obtain ⟨offset, hoffset, hnone⟩ := hearlier other (Nat.lt_of_not_le hlt)
  have hhas := hsame other (address + offset)
  rw [hbytes offset hoffset, hnone, List.getElem?_eq_getElem (by omega)] at hhas
  cases hhas

/-- Two images that have bytes at the same places are read in the same block. -/
theorem exists_place_of_read? (hleft : left.valid = true) (hright : right.valid = true)
    (hcount : 0 < count)
    (hsame : ∀ index address, (left.cell? index address).isSome = (right.cell? index address).isSome)
    {first second : List UInt8} (hfirst : left.read? address count = some first)
    (hsecond : right.read? address count = some second) :
    ∃ place, (∀ offset < count, left.cell? place (address + offset) = first[offset]? ∧
        right.cell? place (address + offset) = second[offset]?) ∧
      ∀ earlier < place, ∃ offset < count, left.cell? earlier (address + offset) = none := by
  obtain ⟨hlengthFirst, place, hplace, hearlier⟩ := (read?_eq_some_iff hleft hcount).mp hfirst
  obtain ⟨hlengthSecond, other, hother, hbefore⟩ := (read?_eq_some_iff hright hcount).mp hsecond
  have hle : other ≤ place := place_le_of_isSome hlengthFirst hsame hplace hbefore
  have hge : place ≤ other :=
    place_le_of_isSome hlengthSecond (fun index address => (hsame index address).symm) hother hearlier
  obtain rfl := Nat.le_antisymm hle hge
  exact ⟨other, fun offset hoffset => ⟨hplace offset hoffset, hother offset hoffset⟩, hearlier⟩

/-- A range that gives back whatever is written to it keeps together: else some byte of it would be
the same after two different writes. -/
theorem keepsTogether_of_read? (hvalid : image.valid = true) (hcount : 0 < count)
    (hread : ∀ values : List UInt8, values.length = count →
      (image.writeBytes address values).read? address count = some values) :
    image.KeepsTogether address count := by
  have hwritten (value : UInt8) :
      (image.writeBytes address (List.replicate count value)).valid = true := by
    rw [valid_writeBytes, hvalid]
  have hlength (value other : UInt8) :
      (List.replicate count value).length = (List.replicate count other).length := by simp
  obtain ⟨hextents, hhomes⟩ := extents_writeBytes_congr (Eq.refl image.extents) address (hlength 0 1)
  obtain ⟨place, hplace, -⟩ := exists_place_of_read? (hwritten 0) (hwritten 1) hcount
    (fun index address => isSome_cell?_congr hextents index address)
    (hread _ List.length_replicate) (hread _ List.length_replicate)
  -- A byte that went elsewhere would be the same after both writes.
  have hgoes (offset : ℕ) (hoffset : offset < count) :
      (image.homes address (List.replicate count 0))[offset]? = some place := by
    by_contra hother
    obtain ⟨hzero, hone⟩ := hplace offset hoffset
    rw [cell?_writeBytes, if_neg hother] at hzero
    rw [cell?_writeBytes, ← hhomes, if_neg hother, hzero] at hone
    simp [hoffset] at hone
  have hall : ∀ home ∈ image.homes address (List.replicate count 0), home = place := by
    intro home hhome
    obtain ⟨offset, hoffset, rfl⟩ := List.mem_iff_getElem.mp hhome
    rw [length_homes, List.length_replicate] at hoffset
    exact Option.some_inj.mp ((List.getElem?_eq_getElem _).symm.trans (hgoes offset hoffset))
  have hfirst : image.home address ∈ image.homes address (List.replicate count 0) := by
    obtain ⟨rest, rfl⟩ := Nat.exists_eq_add_of_lt hcount
    rw [Nat.zero_add, List.replicate_succ, homes]
    exact List.mem_cons_self
  have htogether := (image.forall_mem_homes_iff_keepsTogether address (List.replicate count 0)).mp
    fun home hhome => (hall home hhome).trans (hall _ hfirst).symm
  rwa [List.length_replicate] at htogether

theorem forall_read?_writeBytes_iff (hvalid : image.valid = true) (hcount : 0 < count) :
    (∀ values : List UInt8, values.length = count →
      (image.writeBytes address values).read? address count = some values) ↔
      image.KeepsTogether address count := by
  refine ⟨keepsTogether_of_read? hvalid hcount, ?_⟩
  rintro htogether values rfl
  exact read?_writeBytes_of_keepsTogether hvalid hcount htogether

/-! ### Words -/

theorem readLittleEndian?_eq (hvalid : image.valid = true) (hcount : 0 < count) :
    image.source.readLittleEndian? count address =
      (image.read? address count).map littleEndian := by
  rw [ByteSource.readLittleEndian?]
  change (image.read? address count).bind _ = _
  cases hread : image.read? address count with
  | none => rfl
  | some bytes =>
      obtain ⟨hlength, -⟩ := (read?_eq_some_iff hvalid hcount).mp hread
      rw [Option.bind_some, if_pos (Nat.le_of_eq hlength.symm), Option.map_some,
        List.take_of_length_le (Nat.le_of_eq hlength)]

theorem readLittleEndian?_eq_some_iff (hvalid : image.valid = true) (hcount : 0 < count)
    {number : ℕ} :
    image.source.readLittleEndian? count address = some number ↔ number < 256 ^ count ∧
      image.read? address count = some (littleEndianBytes count number) := by
  rw [readLittleEndian?_eq hvalid hcount, Option.map_eq_some_iff]
  constructor
  · rintro ⟨bytes, hbytes, rfl⟩
    obtain ⟨rfl, -⟩ := (read?_eq_some_iff hvalid hcount).mp hbytes
    rw [littleEndianBytes_littleEndian]
    exact ⟨littleEndian_lt bytes, hbytes⟩
  · rintro ⟨hlt, hread⟩
    exact ⟨_, hread, (littleEndian_littleEndianBytes count number).trans (Nat.mod_eq_of_lt hlt)⟩

/-- Every number is read back from where it was written just if all its bytes go to the block that
takes the first one. -/
theorem forall_readLittleEndian?_writeBytes_iff (hvalid : image.valid = true) (hcount : 0 < count) :
    (∀ number < 256 ^ count,
      (image.writeBytes address (littleEndianBytes count number)).source.readLittleEndian?
        count address = some number) ↔ image.KeepsTogether address count := by
  have hafter (values : List UInt8) : (image.writeBytes address values).valid = true := by
    rw [valid_writeBytes, hvalid]
  simp only [readLittleEndian?_eq_some_iff (hafter _) hcount]
  rw [← forall_read?_writeBytes_iff hvalid hcount]
  constructor
  · rintro hread values rfl
    obtain ⟨-, hvalues⟩ := hread _ (littleEndian_lt values)
    rwa [littleEndianBytes_littleEndian] at hvalues
  · exact fun hread number hlt => ⟨hlt, hread _ (length_littleEndianBytes count number)⟩

/-- Words come back exactly if their numbers do, as long as no number that is read is too large. -/
theorem forall_word_iff {Word : Type} {ofNat : ℕ → Word} {toNat : Word → ℕ} {limit : ℕ}
    (hofNat : ∀ number < limit, toNat (ofNat number) = number)
    (htoNat : ∀ word, ofNat (toNat word) = word) (hword : ∀ word, toNat word < limit)
    {read? : ℕ → Option ℕ} (hread : ∀ written number, read? written = some number → number < limit) :
    (∀ word, (read? (toNat word)).map ofNat = some word) ↔
      ∀ number < limit, read? number = some number := by
  constructor
  · intro hwords number hlt
    have hnumber := hwords (ofNat number)
    rw [hofNat number hlt, Option.map_eq_some_iff] at hnumber
    obtain ⟨found, hfound, hsame⟩ := hnumber
    rw [hfound, ← hofNat found (hread _ _ hfound), hsame, hofNat number hlt]
  · intro hnumbers word
    rw [hnumbers _ (hword word), Option.map_some, htoNat]

theorem lt_of_readLittleEndian?_writeBytes (hvalid : image.valid = true) (hcount : 0 < count)
    (written number : ℕ) (hread : (image.writeBytes address
      (littleEndianBytes count written)).source.readLittleEndian? count address = some number) :
    number < 256 ^ count := by
  have hafter : (image.writeBytes address (littleEndianBytes count written)).valid = true := by
    rw [valid_writeBytes, hvalid]
  exact ((readLittleEndian?_eq_some_iff hafter hcount).mp hread).1

theorem forall_readWord16?_writeWord16_iff (hvalid : image.valid = true) :
    (∀ value, (image.writeWord16 address value).source.readWord16? address = some value) ↔
      image.KeepsTogether address 2 := by
  have hcount : 0 < 2 := by decide
  rw [← forall_readLittleEndian?_writeBytes_iff hvalid hcount]
  exact forall_word_iff (fun _ hlt => UInt16.toNat_ofNat_of_lt' hlt)
    (fun _ => UInt16.ofNat_toNat) UInt16.toNat_lt
    (lt_of_readLittleEndian?_writeBytes hvalid hcount)

theorem forall_readWord32?_writeWord32_iff (hvalid : image.valid = true) :
    (∀ value, (image.writeWord32 address value).source.readWord32? address = some value) ↔
      image.KeepsTogether address 4 := by
  have hcount : 0 < 4 := by decide
  rw [← forall_readLittleEndian?_writeBytes_iff hvalid hcount]
  exact forall_word_iff (fun _ hlt => UInt32.toNat_ofNat_of_lt' hlt)
    (fun _ => UInt32.ofNat_toNat) UInt32.toNat_lt
    (lt_of_readLittleEndian?_writeBytes hvalid hcount)

/-! ### Blocks -/

/-- Writing a block changes the first one that starts at its address, or adds one. -/
theorem getElem?_writeBlock (image : Image) (address : ℕ) (values : List UInt8) (index : ℕ) :
    (image.writeBlock address values).blocks[index]? =
      if index = image.blocks.findIdx (·.start == address) then some ⟨address, values⟩
      else image.blocks[index]? := by
  rw [writeBlock]
  simp only [updateFirst?_eq_map_findIdx?]
  cases hstarts : image.blocks.findIdx? (·.start == address) with
  | some first =>
      obtain ⟨hlt, hindex⟩ := List.findIdx?_eq_some_iff_findIdx_eq.mp hstarts
      obtain ⟨_, hblock, -⟩ := List.findIdx?_eq_some_iff_getElem.mp hstarts
      rw [Option.map_some, Option.getD_some,
        getElem?_modify_of_getElem? (List.getElem?_eq_getElem hlt), hindex, beq_iff_eq.mp hblock]
  | none =>
      rw [Option.map_none, Option.getD_none, getElem?_append_singleton,
        List.findIdx?_eq_none_iff_findIdx_eq.mp hstarts]

theorem cell?_writeBlock (image : Image) (address : ℕ) (values : List UInt8) (index other : ℕ) :
    (image.writeBlock address values).cell? index other =
      if index = image.blocks.findIdx (·.start == address) then Block.byteAt? ⟨address, values⟩ other
      else image.cell? index other := by
  rw [cell?, getElem?_writeBlock]
  split <;> rfl

/-- The blocks that are searched before one that starts at an address. -/
theorem mem_takeWhile_start_iff {other : Block} :
    other ∈ image.blocks.takeWhile (·.start != address) ↔
      ∃ index < image.blocks.findIdx (·.start == address), image.blocks[index]? = some other := by
  have htake : image.blocks.takeWhile (·.start != address) =
      image.blocks.take (image.blocks.findIdx (·.start == address)) := by
    rw [List.takeWhile_eq_take_findIdx_not]
    simp only [bne, Bool.not_not]
  rw [htake, List.mem_iff_getElem?]
  simp only [List.getElem?_take, Option.ite_none_right_eq_some]

/-- A block that was written is read back whole unless one that is searched before it covers the
range too. -/
theorem read?_writeBlock_of_not_covers (hvalid : image.valid = true) {values : List UInt8}
    (hcount : 0 < values.length)
    (hfree : ∀ other ∈ image.blocks.takeWhile (·.start != address),
      ¬other.Covers address values.length) :
    (image.writeBlock address values).read? address values.length = some values := by
  have hafter : (image.writeBlock address values).valid = true := hvalid
  rw [read?_eq_some_iff hafter hcount]
  refine ⟨rfl, image.blocks.findIdx (·.start == address), fun offset _ => ?_,
    fun earlier hearlier => ?_⟩
  · rw [cell?_writeBlock, if_pos rfl, Block.byteAt?, if_pos (Nat.le_add_right _ _),
      Nat.add_sub_cancel_left]
  · simp only [cell?_writeBlock, if_neg (Nat.ne_of_lt hearlier)]
    rw [← cell?_slice?_eq_none_iff hcount, Option.bind_eq_none_iff]
    intro other hother
    rw [Block.slice?_eq_none_iff_not_covers hcount]
    exact hfree other (mem_takeWhile_start_iff.mpr ⟨earlier, hearlier, hother⟩)

/-- An earlier block with the whole range is read instead, whatever block is written. -/
theorem not_covers_of_read?_writeBlock (hvalid : image.valid = true) (hcount : 0 < count)
    (hread : ∀ values : List UInt8, values.length = count →
      (image.writeBlock address values).read? address count = some values) {other : Block}
    (hother : other ∈ image.blocks.takeWhile (·.start != address)) :
    ¬other.Covers address count := by
  intro hcovers
  obtain ⟨shadow, hshadow, hblock⟩ := mem_takeWhile_start_iff.mp hother
  have hafter (values : List UInt8) : (image.writeBlock address values).valid = true := hvalid
  have hsame (index further : ℕ) :
      ((image.writeBlock address (List.replicate count 0)).cell? index further).isSome =
        ((image.writeBlock address (List.replicate count 1)).cell? index further).isSome := by
    rw [cell?_writeBlock, cell?_writeBlock]
    split
    case isTrue => simp [Block.isSome_byteAt?, Block.holds, Block.stop]
    case isFalse => rfl
  obtain ⟨place, hplace, hearlier⟩ := exists_place_of_read? (hafter _) (hafter _) hcount hsame
    (hread _ List.length_replicate) (hread _ List.length_replicate)
  have hle : place ≤ shadow := by
    by_contra hlt
    obtain ⟨offset, hoffset, hnone⟩ := hearlier shadow (Nat.lt_of_not_le hlt)
    have hhas := (Block.covers_iff hcount).mp hcovers offset hoffset
    rw [cell?_writeBlock, if_neg (Nat.ne_of_lt hshadow), cell?, hblock, Option.bind_some] at hnone
    rw [hnone] at hhas
    cases hhas
  -- The place stands before the written block, so its first byte is the same after both writes.
  have hkept : place ≠ image.blocks.findIdx (·.start == address) := by omega
  obtain ⟨hzero, hone⟩ := hplace 0 hcount
  rw [cell?_writeBlock, if_neg hkept] at hzero hone
  rw [hzero] at hone
  simp [hcount] at hone

/-- A block is read back unless an earlier one has the whole range of it. -/
theorem forall_read?_writeBlock_iff (hvalid : image.valid = true) (hcount : 0 < count) :
    (∀ values : List UInt8, values.length = count →
      (image.writeBlock address values).read? address count = some values) ↔
      ∀ other ∈ image.blocks.takeWhile (·.start != address), ¬other.Covers address count := by
  refine ⟨fun hread other hother => not_covers_of_read?_writeBlock hvalid hcount hread hother, ?_⟩
  rintro hfree values rfl
  exact read?_writeBlock_of_not_covers hvalid hcount hfree

/-! ## What is read back -/

/-- In an image that can be read, whatever is written to a range is read back from it exactly if all
of its bytes go to the block that takes the first one, and whatever block is written is read back
exactly if no block that is searched before it has its whole range. -/
theorem reads_back_iff (hvalid : image.valid = true) (address : ℕ) :
    ((∀ value, (image.writeWord16 address value).source.readWord16? address = some value) ↔
      image.KeepsTogether address 2) ∧
    ((∀ value, (image.writeWord32 address value).source.readWord32? address = some value) ↔
      image.KeepsTogether address 4) ∧
    ∀ count, 0 < count →
      ((∀ values : List UInt8, values.length = count →
        (image.writeBytes address values).source.read? address count = some values) ↔
        image.KeepsTogether address count) ∧
      ((∀ values : List UInt8, values.length = count →
        (image.writeBlock address values).source.read? address count = some values) ↔
        ∀ other ∈ image.blocks.takeWhile (·.start != address), ¬other.Covers address count) :=
  ⟨forall_readWord16?_writeWord16_iff hvalid, forall_readWord32?_writeWord32_iff hvalid,
    fun _ hcount =>
      ⟨forall_read?_writeBytes_iff hvalid hcount, forall_read?_writeBlock_iff hvalid hcount⟩⟩

/-- Two blocks of which the first one to be searched cuts the other one. -/
def crossed : Image := (({} : Image).writeBlock 1 [0x0A, 0x0B]).writeBlock 0 [1, 2]

/-- All bytes from the address 2 on go to the first block, and a block of three bytes at the address 0
is not hidden by it. -/
theorem reads_back_crossed :
    crossed.valid = true ∧ (0 : ℕ) < 3 ∧
      (∀ value, (crossed.writeWord16 2 value).source.readWord16? 2 = some value) ∧
      (∀ value, (crossed.writeWord32 2 value).source.readWord32? 2 = some value) ∧
      (∀ values : List UInt8, values.length = 3 →
        (crossed.writeBytes 2 values).source.read? 2 3 = some values) ∧
      ∀ values : List UInt8, values.length = 3 →
        (crossed.writeBlock 0 values).source.read? 0 3 = some values := by
  have hvalid : crossed.valid = true := rfl
  have hcount : 0 < 3 := by decide
  have hstops : ∀ block ∈ crossed.blocks, block.stop ≤ 3 := by decide
  have htogether (count : ℕ) : crossed.KeepsTogether 2 count := by
    intro further hbehind _
    have hhome : crossed.home 2 = 0 := by decide
    rw [hhome]
    refine ⟨fun _ hindex => absurd hindex (Nat.not_lt_zero _), .inr ⟨fun index => ?_, ?_⟩⟩
    · refine cell?_eq_none_iff.mpr fun block hblock => ?_
      have hstop := hstops block (List.mem_of_getElem? hblock)
      rw [← Bool.not_eq_true, Block.holds_iff]
      omega
    · simp
  obtain ⟨hword, hlong, hranges⟩ := reads_back_iff hvalid 2
  obtain ⟨-, hblock⟩ := (reads_back_iff hvalid 0).2.2 3 hcount
  exact ⟨hvalid, hcount, hword.mpr (htogether 2), hlong.mpr (htogether 4),
    (hranges 3 hcount).1.mpr (htogether 3), hblock.mpr (by decide)⟩

/-- What is written is not always read back: the first block takes the second byte of a range that
is read from the other one, the bytes of a longer range are in no block together, and an earlier
block stands in front of a block that is added. -/
theorem not_reads_back_crossed :
    crossed.valid = true ∧
      (crossed.writeWord16 0 0x0807).source.readWord16? 0 = some 0x0207 ∧
      (crossed.writeWord32 0 0x0A090807).source.readWord32? 0 = none ∧
      (crossed.writeBytes 0 [7, 8]).source.read? 0 2 = some [7, 2] ∧
      (crossed.writeBlock 2 [9]).source.read? 2 1 = some [0x0B] := by
  decide

end Image

end AchievementLogic
