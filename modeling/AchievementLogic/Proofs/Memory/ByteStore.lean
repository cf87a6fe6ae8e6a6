import AchievementLogic.Memory.Image
import Mathlib.Data.List.Basic
import Mathlib.Data.List.Induction

/-!
# Images as stores of bytes

Blocks may overlap, so a byte of an image is found by the place of a block and by its address in it.
Writing a byte changes one of these cells and no other one: a cell that reading finds first of all
cells at the address.  An image is therefore a store of bytes, whatever its blocks are, and no block
comes to stop behind the last byte that was in it or was written.
-/

namespace AchievementLogic

/-! ## Blocks -/

namespace Block

variable {block : Block} {address : ℕ}

theorem holds_iff : block.holds address = true ↔ block.start ≤ address ∧ address < block.stop := by
  simp [holds]

def byteAt? (block : Block) (address : ℕ) : Option UInt8 :=
  if block.start ≤ address then block.bytes[address - block.start]? else none

theorem isSome_byteAt? (block : Block) (address : ℕ) :
    (block.byteAt? address).isSome = block.holds address := by
  rw [Bool.eq_iff_iff, holds_iff, byteAt?]
  split
  case isTrue hstart =>
    rw [isSome_getElem?, stop]
    omega
  case isFalse hbefore => simp [hbefore]

theorem byteAt?_eq_none_iff : block.byteAt? address = none ↔ block.holds address = false := by
  rw [← isSome_byteAt?, Option.isSome_eq_false_iff, Option.isNone_iff_eq_none]

/-- A byte that is written over another one is found there, and nothing else changes. -/
theorem byteAt?_patch (hholds : block.holds address = true) (value : UInt8) (other : ℕ) :
    (block.patch address value).byteAt? other =
      if other = address then some value else block.byteAt? other := by
  obtain ⟨hstart, hstop⟩ := holds_iff.mp hholds
  rw [stop] at hstop
  have hinside : address - block.start < block.bytes.length := by omega
  have hpatch : (block.patch address value).byteAt? other = if block.start ≤ other then
      (block.bytes.set (address - block.start) value)[other - block.start]? else none := rfl
  rw [hpatch, byteAt?]
  by_cases hother : other = address
  · subst hother
    rw [if_pos rfl, if_pos hstart, List.getElem?_set_self hinside]
  · rw [if_neg hother]
    split
    case isTrue hreached => rw [List.getElem?_set_ne (by omega)]
    case isFalse => rfl

/-- A byte that is pushed stands at the address where the block stopped; all others stay. -/
theorem byteAt?_push (hstop : block.stop = address) (value : UInt8) (other : ℕ) :
    (block.push value).byteAt? other =
      if other = address then some value else block.byteAt? other := by
  rw [stop] at hstop
  have hpush : (block.push value).byteAt? other = if block.start ≤ other then
      (block.bytes ++ [value])[other - block.start]? else none := rfl
  rw [hpush, byteAt?]
  by_cases hother : other = address
  · have hlast : other - block.start = block.bytes.length := by omega
    rw [if_pos (by omega), if_pos hother, hlast, List.getElem?_concat_length]
  · rw [if_neg hother]
    split
    case isTrue hreached =>
      rw [List.getElem?_append]
      split
      case isTrue => rfl
      case isFalse hbehind =>
        have hfar : 1 ≤ other - block.start - block.bytes.length := by omega
        rw [List.getElem?_eq_none (by simpa using hfar), List.getElem?_eq_none (by omega)]
    case isFalse => rfl

theorem byteAt?_of_lt (hbefore : address < block.start) : block.byteAt? address = none :=
  if_neg (Nat.not_le_of_lt hbefore)

theorem byteAt?_cons (start : ℕ) (value : UInt8) (values : List UInt8) (address : ℕ) :
    byteAt? ⟨start, value :: values⟩ address =
      if address = start then some value else byteAt? ⟨start + 1, values⟩ address := by
  by_cases hfirst : address = start
  · simp [byteAt?, hfirst]
  · rw [if_neg hfirst, byteAt?, byteAt?]
    by_cases hbehind : start + 1 ≤ address
    · obtain ⟨offset, rfl⟩ := Nat.exists_eq_add_of_le hbehind
      have hoffset : start + 1 + offset - start = offset + 1 := by omega
      simp only [hoffset, Nat.add_sub_cancel_left, List.getElem?_cons_succ]
      rw [if_pos (by omega), if_pos hbehind]
    · have hbefore : ¬start ≤ address := by omega
      rw [if_neg hbehind, if_neg hbefore]

/-- A range of one byte is the byte at its address. -/
theorem slice?_one (block : Block) (address : ℕ) :
    block.slice? address 1 = (block.byteAt? address).map fun value => [value] := by
  rw [slice?, ← isSome_byteAt?]
  cases hbyte : block.byteAt? address with
  | none => rfl
  | some value =>
      rw [byteAt?, Option.ite_none_right_eq_some, List.getElem?_eq_some_iff] at hbyte
      obtain ⟨-, hinside, rfl⟩ := hbyte
      have hslice : (block.bytes.drop (address - block.start)).take 1 =
          [block.bytes[address - block.start]] := by
        rw [List.drop_eq_getElem_cons hinside, List.take_succ_cons, List.take_zero]
      simp [Nat.succ_le_of_lt hinside, hslice]

end Block

/-! ## Places of lists -/

theorem getElem?_modify_of_getElem? {Item : Type} {items : List Item} {item : Item} {place : ℕ}
    (hitem : items[place]? = some item) (change : Item → Item) (index : ℕ) :
    (items.modify place change)[index]? =
      if index = place then some (change item) else items[index]? := by
  split
  case isTrue hindex =>
    rw [hindex, List.getElem?_modify_eq, hitem, Option.map_eq_map, Option.map_some]
  case isFalse hindex => rw [List.getElem?_modify_ne _ _ (Ne.symm hindex)]

theorem getElem?_append_singleton {Item : Type} (items : List Item) (last : Item) (index : ℕ) :
    (items ++ [last])[index]? = if index = items.length then some last else items[index]? := by
  rcases Nat.lt_trichotomy index items.length with hlt | rfl | hgt
  · rw [List.getElem?_append_left hlt, if_neg (Nat.ne_of_lt hlt)]
  · rw [List.getElem?_concat_length, if_pos rfl]
  · rw [List.getElem?_eq_none (by simpa using Nat.succ_le_of_lt hgt),
      List.getElem?_eq_none (Nat.le_of_lt hgt), if_neg (Nat.ne_of_gt hgt)]

/-- What is found first is found at some place and at none before it. -/
theorem findSome?_eq_some_iff_getElem? {Item Found : Type} {find? : Item → Option Found}
    {items : List Item} {found : Found} :
    items.findSome? find? = some found ↔ ∃ place : ℕ, items[place]?.bind find? = some found ∧
      ∀ earlier < place, items[earlier]?.bind find? = none := by
  rw [List.findSome?_eq_some_iff]
  constructor
  · rintro ⟨before, item, after, rfl, hitem, hnone⟩
    refine ⟨before.length, by simp [hitem], fun earlier hlt => ?_⟩
    rw [List.getElem?_append_left hlt, List.getElem?_eq_getElem hlt]
    exact hnone _ (List.getElem_mem hlt)
  · rintro ⟨place, hplace, hearlier⟩
    obtain ⟨item, hitem, hfound⟩ := Option.bind_eq_some_iff.mp hplace
    obtain ⟨hlt, rfl⟩ := List.getElem?_eq_some_iff.mp hitem
    refine ⟨items.take place, _, items.drop (place + 1), by simp, hfound, fun other hother => ?_⟩
    obtain ⟨earlier, hbefore, rfl⟩ := List.mem_take_iff_getElem.mp hother
    have hnone := hearlier earlier (Nat.lt_of_lt_of_le hbefore (Nat.min_le_left _ _))
    rwa [List.getElem?_eq_getElem] at hnone

theorem mem_take_of_getElem? {Item : Type} {items : List Item} {item : Item} {index bound : ℕ}
    (hitem : items[index]? = some item) (hlt : index < bound) : item ∈ items.take bound := by
  refine List.mem_of_getElem? (?_ : (items.take bound)[index]? = some item)
  rwa [List.getElem?_take_of_lt hlt]

theorem updateFirst?_eq_map_findIdx? {Item : Type} (picks : Item → Bool) (update : Item → Item)
    (items : List Item) :
    updateFirst? picks update items =
      (items.findIdx? picks).map fun place => items.modify place update := by
  induction items with
  | nil => rfl
  | cons head tail ih =>
      rw [updateFirst?, List.findIdx?_cons, ih]
      cases picks head with
      | true => rfl
      | false => cases tail.findIdx? picks <;> rfl

namespace Image

variable {image : Image} {address : ℕ}

/-! ## Cells -/

/-- The byte of an image at an address in the block at a place. -/
def cell? (image : Image) (place address : ℕ) : Option UInt8 :=
  image.blocks[place]?.bind (·.byteAt? address)

theorem cell?_eq_none_iff {index : ℕ} :
    image.cell? index address = none ↔
      ∀ block, image.blocks[index]? = some block → block.holds address = false := by
  rw [cell?, Option.bind_eq_none_iff]
  simp only [Block.byteAt?_eq_none_iff]

/-- The place of the block to which a byte is written: the first one that has the address, else the
first one that stops there, else the one behind all blocks. -/
def home (image : Image) (address : ℕ) : ℕ :=
  (image.blocks.findIdx? (·.holds address)).getD (image.blocks.findIdx (·.stop == address))

theorem valid_writeByte (image : Image) (address : ℕ) (value : UInt8) :
    (image.writeByte address value).valid = image.valid := rfl

/-- What writing a byte can do: it patches the first block that has the address, or extends the first
one that stops there if none has it, or adds a block if there is neither. -/
theorem writeByte_cases (image : Image) (address : ℕ) (value : UInt8) :
    (∃ block, image.blocks[image.home address]? = some block ∧ block.holds address = true ∧
      (∀ other ∈ image.blocks.take (image.home address), other.holds address = false) ∧
      (image.writeByte address value).blocks =
        image.blocks.modify (image.home address) (·.patch address value)) ∨
    (∃ block, image.blocks[image.home address]? = some block ∧ block.stop = address ∧
      (∀ other ∈ image.blocks, other.holds address = false) ∧
      (∀ other ∈ image.blocks.take (image.home address), other.stop ≠ address) ∧
      (image.writeByte address value).blocks =
        image.blocks.modify (image.home address) (·.push value)) ∨
    (image.home address = image.blocks.length ∧
      (∀ other ∈ image.blocks, other.holds address = false ∧ other.stop ≠ address) ∧
      (image.writeByte address value).blocks = image.blocks ++ [⟨address, [value]⟩]) := by
  have hearlier {picks : Block → Bool} {first : ℕ}
      (hfirst : image.blocks.findIdx? picks = some first) :
      ∀ other ∈ image.blocks.take first, picks other = false := by
    obtain ⟨hlt, _, hbefore⟩ := List.findIdx?_eq_some_iff_getElem.mp hfirst
    intro other hother
    obtain ⟨index, hindex, rfl⟩ := List.mem_take_iff_getElem.mp hother
    exact Bool.eq_false_iff.mpr (hbefore index (Nat.lt_of_lt_of_le hindex (Nat.min_le_left _ _)))
  rw [writeByte, home]
  simp only [updateFirst?_eq_map_findIdx?]
  cases hholds : image.blocks.findIdx? (·.holds address) with
  | some first =>
      obtain ⟨hlt, hblock, -⟩ := List.findIdx?_eq_some_iff_getElem.mp hholds
      exact .inl ⟨_, List.getElem?_eq_getElem hlt, hblock, hearlier hholds, rfl⟩
  | none =>
      have hnone := List.findIdx?_eq_none_iff.mp hholds
      cases hstops : image.blocks.findIdx? (·.stop == address) with
      | some first =>
          obtain ⟨hlt, hindex⟩ := List.findIdx?_eq_some_iff_findIdx_eq.mp hstops
          obtain ⟨_, hblock, _⟩ := List.findIdx?_eq_some_iff_getElem.mp hstops
          simp only [Option.getD_none, hindex]
          refine .inr (.inl ⟨_, List.getElem?_eq_getElem hlt, by simpa using hblock, hnone, ?_, rfl⟩)
          exact fun other hother => by simpa using hearlier hstops other hother
      | none =>
          have hlength := List.findIdx?_eq_none_iff_findIdx_eq.mp hstops
          have hopen := List.findIdx?_eq_none_iff.mp hstops
          simp only [Option.getD_none, hlength]
          refine .inr (.inr ⟨trivial, fun other hother => ⟨hnone other hother, ?_⟩, rfl⟩)
          simpa using hopen other hother

/-- Writing a byte changes one block: there it is found at its address, and the block stops behind it
if it did not before. -/
theorem exists_written (image : Image) (address : ℕ) (value : UInt8) :
    ∃ written : Block,
      (∀ index, (image.writeByte address value).blocks[index]? =
        if index = image.home address then some written else image.blocks[index]?) ∧
      written.start = (image.blocks[image.home address]?.map Block.start).getD address ∧
      written.stop = max ((image.blocks[image.home address]?.map Block.stop).getD 0) (address + 1) ∧
      ∀ other, written.byteAt? other =
        if other = address then some value else image.cell? (image.home address) other := by
  rcases image.writeByte_cases address value with
    ⟨block, hblock, hholds, -, hafter⟩ | ⟨block, hblock, hstop, -, -, hafter⟩ |
    ⟨hlength, -, hafter⟩
  · have hkept : (block.patch address value).stop = block.stop := by simp [Block.patch, Block.stop]
    have hinside := (Block.holds_iff.mp hholds).2
    refine ⟨block.patch address value, ?_, ?_, ?_, fun other => ?_⟩
    · rw [hafter]
      exact getElem?_modify_of_getElem? hblock (·.patch address value)
    · simp [hblock, Block.patch]
    · simp only [hblock, Option.map_some, Option.getD_some]
      omega
    · rw [cell?, hblock, Option.bind_some, Block.byteAt?_patch hholds]
  · have hlonger : (block.push value).stop = block.stop + 1 := by
      simp [Block.push, Block.stop, Nat.add_assoc]
    refine ⟨block.push value, ?_, ?_, ?_, fun other => ?_⟩
    · rw [hafter]
      exact getElem?_modify_of_getElem? hblock (·.push value)
    · simp [hblock, Block.push]
    · simp only [hblock, Option.map_some, Option.getD_some]
      omega
    · rw [cell?, hblock, Option.bind_some, Block.byteAt?_push hstop]
  · have hnone : image.blocks[image.home address]? = none := by simp [hlength]
    refine ⟨⟨address, [value]⟩, fun index => ?_, ?_, ?_, fun other => ?_⟩
    · rw [hafter, hlength, getElem?_append_singleton]
    · simp [hnone]
    · simp [hnone, Block.stop]
    · have hempty : Block.byteAt? ⟨address, []⟩ other = none := by simp [Block.byteAt?]
      have hstop : Block.stop ⟨address, []⟩ = address := rfl
      rw [cell?, hnone, Option.bind_none, ← hempty]
      exact Block.byteAt?_push hstop value other

/-- Writing a byte changes one cell. -/
theorem cell?_writeByte (image : Image) (address : ℕ) (value : UInt8) (index other : ℕ) :
    (image.writeByte address value).cell? index other =
      if index = image.home address ∧ other = address then some value
      else image.cell? index other := by
  obtain ⟨written, hblocks, -, -, hbytes⟩ := image.exists_written address value
  rw [cell?, hblocks]
  by_cases hindex : index = image.home address
  · rw [if_pos hindex, Option.bind_some, hbytes, hindex]
    simp only [true_and]
  · rw [if_neg hindex, if_neg (fun hboth => hindex hboth.1), cell?]

/-- No earlier block has the address to which a byte is written. -/
theorem cell?_eq_none_of_lt_home {earlier : ℕ} (hearlier : earlier < image.home address) :
    image.cell? earlier address = none := by
  rw [cell?_eq_none_iff]
  intro block hblock
  have hmem : block ∈ image.blocks.take (image.home address) :=
    mem_take_of_getElem? hblock hearlier
  rcases image.writeByte_cases address 0 with
    ⟨-, -, -, hfree, -⟩ | ⟨-, -, -, hfree, -⟩ | ⟨-, hfree, -⟩
  · exact hfree block hmem
  · exact hfree block (List.mem_of_mem_take hmem)
  · exact (hfree block (List.mem_of_mem_take hmem)).1

/-! ## Reading bytes -/

theorem readByte?_eq (hvalid : image.valid = true) (address : ℕ) :
    image.source.readByte? address = image.blocks.findSome? (·.byteAt? address) := by
  have hread : image.source.read? address 1 =
      (image.blocks.findSome? (·.byteAt? address)).map fun value => [value] := by
    simp only [source, read?, hvalid, if_true, Block.slice?_one, List.map_findSome?,
      Function.comp_def]
  rw [ByteSource.readByte?, hread]
  cases image.blocks.findSome? (·.byteAt? address) <;> rfl

/-- The first cell at an address is the byte that is read there. -/
theorem readByte?_eq_some_iff (hvalid : image.valid = true) {value : UInt8} :
    image.source.readByte? address = some value ↔ ∃ place, image.cell? place address = some value ∧
      ∀ earlier < place, image.cell? earlier address = none := by
  rw [readByte?_eq hvalid]
  exact findSome?_eq_some_iff_getElem?

/-- A byte that is written is read at its address and nowhere else. -/
theorem readByte?_writeByte (hvalid : image.valid = true) (address : ℕ) (value : UInt8)
    (other : ℕ) :
    (image.writeByte address value).source.readByte? other =
      if other = address then some value else image.source.readByte? other := by
  have hafter : (image.writeByte address value).valid = true := hvalid
  split
  case isTrue hsame =>
    subst hsame
    rw [readByte?_eq_some_iff hafter]
    refine ⟨image.home other, ?_, fun earlier hearlier => ?_⟩
    · rw [cell?_writeByte, if_pos ⟨rfl, rfl⟩]
    · rw [cell?_writeByte, if_neg (fun hboth => Nat.ne_of_lt hearlier hboth.1),
        cell?_eq_none_of_lt_home hearlier]
  case isFalse hother =>
    apply Option.ext
    intro found
    rw [readByte?_eq_some_iff hafter, readByte?_eq_some_iff hvalid]
    simp only [cell?_writeByte, hother, and_false, if_false]

theorem valid_writeBytes (image : Image) (address : ℕ) (values : List UInt8) :
    (image.writeBytes address values).valid = image.valid := by
  induction values generalizing image address with
  | nil => rfl
  | cons value values ih => rw [writeBytes, ih, valid_writeByte]

/-- A reader sees the bytes that were written, and at all other addresses what it saw before. -/
theorem readByte?_writeBytes (hvalid : image.valid = true) (address : ℕ) (values : List UInt8)
    (other : ℕ) :
    (image.writeBytes address values).source.readByte? other =
      (Block.byteAt? ⟨address, values⟩ other).or (image.source.readByte? other) := by
  induction values generalizing image address with
  | nil => simp [writeBytes, Block.byteAt?]
  | cons value values ih =>
      have hafter : (image.writeByte address value).valid = true := hvalid
      rw [writeBytes, ih hafter, readByte?_writeByte hvalid, Block.byteAt?_cons]
      split
      case isTrue hfirst =>
        subst hfirst
        rw [Block.byteAt?_of_lt (Nat.lt_succ_self other)]
        rfl
      case isFalse => rfl

/-! ## Runs of writes -/

/-- A write of one of the four kinds, at an address. -/
inductive Write
  | byte (address : ℕ) (value : UInt8)
  | word16 (address : ℕ) (value : UInt16)
  | word32 (address : ℕ) (value : UInt32)
  | bytes (address : ℕ) (values : List UInt8)
deriving DecidableEq, Repr

def Write.block : Write → Block
  | byte address value => ⟨address, [value]⟩
  | word16 address value => ⟨address, [value.toUInt8, (value >>> 8).toUInt8]⟩
  | word32 address value =>
    ⟨address, [value.toUInt8, (value >>> 8).toUInt8, (value >>> 16).toUInt8, (value >>> 24).toUInt8]⟩
  | bytes address values => ⟨address, values⟩

def Write.last? (writes : List Write) (address : ℕ) : Option UInt8 :=
  writes.reverse.findSome? (·.block.byteAt? address)

def write (image : Image) : Write → Image
  | .byte address value => image.writeByte address value
  | .word16 address value => image.writeWord16 address value
  | .word32 address value => image.writeWord32 address value
  | .bytes address values => image.writeBytes address values

def afterWrites (image : Image) (writes : List Write) : Image := writes.foldl write image

theorem afterWrites_append_singleton (image : Image) (writes : List Write) (last : Write) :
    image.afterWrites (writes ++ [last]) = (image.afterWrites writes).write last :=
  List.foldl_concat ..

theorem Write.last?_append_singleton (writes : List Write) (last : Write) (address : ℕ) :
    last? (writes ++ [last]) address = (last.block.byteAt? address).or (last? writes address) := by
  rw [last?, List.reverse_append, List.reverse_singleton, List.singleton_append,
    List.findSome?_cons]
  cases last.block.byteAt? address <;> rfl

/-- Every write puts its bytes at its address, one after the other. -/
theorem write_eq_writeBytes (image : Image) (write : Write) :
    image.write write = image.writeBytes write.block.start write.block.bytes := by
  cases write with
  | byte address value => rfl
  | word16 address value =>
      have hhigh : UInt8.ofNat (value.toNat / 256) = (value >>> 8).toUInt8 := by
        rw [← UInt8.toNat_inj]
        simp [Nat.shiftRight_eq_div_pow]
      have hbytes : littleEndianBytes 2 value.toNat = [value.toUInt8, (value >>> 8).toUInt8] := by
        rw [← hhigh]
        rfl
      exact congrArg (image.writeBytes address) hbytes
  | word32 address value =>
      have hsecond : UInt8.ofNat (value.toNat / 256) = (value >>> 8).toUInt8 := by
        rw [← UInt8.toNat_inj]
        simp [Nat.shiftRight_eq_div_pow]
      have hthird : UInt8.ofNat (value.toNat / 256 / 256) = (value >>> 16).toUInt8 := by
        rw [← UInt8.toNat_inj]
        simp [Nat.shiftRight_eq_div_pow, Nat.div_div_eq_div_mul]
      have hfourth : UInt8.ofNat (value.toNat / 256 / 256 / 256) = (value >>> 24).toUInt8 := by
        rw [← UInt8.toNat_inj]
        simp [Nat.shiftRight_eq_div_pow, Nat.div_div_eq_div_mul]
      have hbytes : littleEndianBytes 4 value.toNat =
          [value.toUInt8, (value >>> 8).toUInt8, (value >>> 16).toUInt8,
            (value >>> 24).toUInt8] := by
        rw [← hsecond, ← hthird, ← hfourth]
        rfl
      exact congrArg (image.writeBytes address) hbytes
  | bytes address values => rfl

theorem valid_afterWrites (image : Image) (writes : List Write) :
    (image.afterWrites writes).valid = image.valid := by
  induction writes using List.reverseRecOn with
  | nil => rfl
  | append_singleton writes last ih =>
      rw [afterWrites_append_singleton, write_eq_writeBytes, valid_writeBytes, ih]

/-! ## Where blocks stop -/

def Within (image : Image) (limit : ℕ) : Prop := ∀ block ∈ image.blocks, block.stop ≤ limit

variable {limit : ℕ}

/-- A write below a limit lets no block grow past it. -/
theorem Within.writeByte (hwithin : image.Within limit) (hlimit : address < limit) (value : UInt8) :
    (image.writeByte address value).Within limit := by
  obtain ⟨written, hblocks, -, hstop, -⟩ := image.exists_written address value
  have hwritten : written.stop ≤ limit := by
    rw [hstop]
    cases hhome : image.blocks[image.home address]? with
    | none => simpa using Nat.succ_le_of_lt hlimit
    | some block => exact Nat.max_le.mpr ⟨hwithin block (List.mem_of_getElem? hhome), hlimit⟩
  intro block hblock
  obtain ⟨index, hindex⟩ := List.mem_iff_getElem?.mp hblock
  rw [hblocks] at hindex
  split at hindex
  case isTrue =>
    cases hindex
    exact hwritten
  case isFalse => exact hwithin block (List.mem_of_getElem? hindex)

theorem Within.writeBytes (hwithin : image.Within limit) {values : List UInt8}
    (hlimit : address + values.length ≤ limit) : (image.writeBytes address values).Within limit := by
  induction values generalizing image address with
  | nil => exact hwithin
  | cons value values ih =>
      rw [List.length_cons] at hlimit
      exact ih (hwithin.writeByte (by omega) value) (by omega)

theorem Within.afterWrites (hwithin : image.Within limit) {writes : List Write}
    (hlimit : ∀ write ∈ writes, write.block.stop ≤ limit) :
    (image.afterWrites writes).Within limit := by
  induction writes using List.reverseRecOn with
  | nil => exact hwithin
  | append_singleton writes last ih =>
      obtain ⟨hearlier, hlast⟩ := List.forall_mem_append.mp hlimit
      rw [afterWrites_append_singleton, write_eq_writeBytes]
      exact (ih hearlier).writeBytes (hlast last (List.mem_singleton_self last))

/-- However an image that can be read is written to, at each address it gives the byte that was last
written there, or the one that it gave before if none was.  No block comes to stop behind a limit
that all blocks and all writes keep, so that within it no address is too large. -/
theorem readByte?_afterWrites (hvalid : image.valid = true) (writes : List Write) :
    (∀ address, (image.afterWrites writes).source.readByte? address =
      (Write.last? writes address).or (image.source.readByte? address)) ∧
    ∀ limit, image.Within limit → (∀ write ∈ writes, write.block.stop ≤ limit) →
      (image.afterWrites writes).Within limit := by
  refine ⟨fun address => ?_, fun limit hwithin hlimit => hwithin.afterWrites hlimit⟩
  induction writes using List.reverseRecOn with
  | nil => rfl
  | append_singleton writes last ih =>
      have hbefore : (image.afterWrites writes).valid = true := by rw [valid_afterWrites, hvalid]
      rw [afterWrites_append_singleton, write_eq_writeBytes, readByte?_writeBytes hbefore, ih,
        Write.last?_append_singleton, Option.or_assoc]

/-- Two blocks that overlap in a byte, and one that begins where the first one stops. -/
def overlapping : Image := { blocks := [⟨0, [1, 2]⟩, ⟨1, [7, 8, 9]⟩, ⟨2, [5]⟩] }

theorem readByte?_afterWrites_overlapping :
    let writes := [.word32 0 0x44332211, .byte 1 0xAA, .bytes 3 [0xBB, 0xCC]]
    let after := overlapping.afterWrites writes
    overlapping.valid = true ∧ overlapping.Within 5 ∧
      (∀ write ∈ writes, (write : Write).block.stop ≤ 5) ∧
      (List.range 6).map after.source.readByte? =
        [some 0x11, some 0xAA, some 0x33, some 0xBB, some 0xCC, none] ∧
      after.Within 5 := by
  intro writes after
  have hwithin : overlapping.Within 5 := by
    intro block hblock
    revert block
    decide
  have hwrites : ∀ write ∈ writes, (write : Write).block.stop ≤ 5 := by decide
  have hvalid : overlapping.valid = true := rfl
  obtain ⟨hread, hlimit⟩ := readByte?_afterWrites hvalid writes
  refine ⟨hvalid, hwithin, hwrites, ?_, hlimit 5 hwithin hwrites⟩
  rw [funext hread]
  decide

end Image

end AchievementLogic
