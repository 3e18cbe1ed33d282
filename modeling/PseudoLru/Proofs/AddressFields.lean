import Mathlib.Tactic
import PseudoLru.AddressLayout
import PseudoLru.Proofs.ArithmeticInRange

/-!
# The fields of an address

An address is a number of three digits: the offset counts the bytes of a line,
the index the lines of a row of sets, and the tag the rows.  Decoding divides
by the weights of the digits, and composing adds the digits up again.  Since
the fields cover the address, both directions are exact at all widths, those
of 0 and 64 bits included.

The widths of a layout add up to 64 at most, so no calculation with widths of 32
bits leaves its range, and a shift by 64 is told from those that a word allows.
-/

namespace PseudoLru

namespace Word

theorem toNat_and_lowMask (w : UInt64) {count : Nat} (h : count ≤ 64) :
    (w &&& lowMask count).toNat = w.toNat % 2 ^ count := by
  rw [UInt64.toNat_and, toNat_lowMask h, Nat.one_shiftLeft, Nat.and_two_pow_sub_one_eq_mod]

/-- A field that is cut to its width loses nothing when it is shifted to its
place. -/
theorem toNat_shiftLeft_and_lowMask (w : UInt64) {count amount : Nat}
    (h : count + amount ≤ 64) :
    (shiftLeft (w &&& lowMask count) amount).toNat = w.toNat % 2 ^ count * 2 ^ amount := by
  have hcut : w.toNat % 2 ^ count < 2 ^ count := Nat.mod_lt _ (Nat.two_pow_pos count)
  have hfits : w.toNat % 2 ^ count * 2 ^ amount < UInt64.size :=
    calc
      w.toNat % 2 ^ count * 2 ^ amount < 2 ^ count * 2 ^ amount :=
        Nat.mul_lt_mul_of_pos_right hcut (Nat.two_pow_pos amount)
      _ = 2 ^ (count + amount) := (Nat.pow_add 2 count amount).symm
      _ ≤ 2 ^ 64 := Nat.pow_le_pow_right (by decide) h
  rw [toNat_shiftLeft, toNat_and_lowMask w ((Nat.le_add_right _ _).trans h), Nat.one_shiftLeft,
    Nat.mod_eq_of_lt hfits]

end Word

namespace AddressLayout

/-! ## Numbers of three digits -/

section Digits

variable {offsetBits indexBits index offset : Nat} (tag : Nat)

theorem or_or_eq_add (hindex : index < 2 ^ indexBits) (hoffset : offset < 2 ^ offsetBits) :
    tag * 2 ^ (offsetBits + indexBits) ||| index * 2 ^ offsetBits ||| offset =
      tag * 2 ^ (offsetBits + indexBits) + (index * 2 ^ offsetBits + offset) := by
  have hbelow : 2 ^ offsetBits * index + offset < 2 ^ (offsetBits + indexBits) := by
    rw [Nat.pow_add, Nat.mul_comm _ index, Nat.mul_comm (2 ^ offsetBits)]
    exact mul_add_lt_mul hindex hoffset
  rw [Nat.or_assoc, Nat.mul_comm index, ← Nat.two_pow_add_eq_or_of_lt hoffset, Nat.mul_comm tag,
    ← Nat.two_pow_add_eq_or_of_lt hbelow]

theorem digits_of_sum (hindex : index < 2 ^ indexBits) (hoffset : offset < 2 ^ offsetBits) :
    (tag * 2 ^ (offsetBits + indexBits) + (index * 2 ^ offsetBits + offset)) /
        2 ^ (offsetBits + indexBits) = tag ∧
      (tag * 2 ^ (offsetBits + indexBits) + (index * 2 ^ offsetBits + offset)) /
        2 ^ offsetBits % 2 ^ indexBits = index ∧
      (tag * 2 ^ (offsetBits + indexBits) + (index * 2 ^ offsetBits + offset)) %
        2 ^ offsetBits = offset := by
  have hbelow : index * 2 ^ offsetBits + offset < 2 ^ (offsetBits + indexBits) := by
    rw [Nat.pow_add, Nat.mul_comm (2 ^ offsetBits)]
    exact mul_add_lt_mul hindex hoffset
  have hlines : tag * 2 ^ (offsetBits + indexBits) + (index * 2 ^ offsetBits + offset) =
      offset + (index + tag * 2 ^ indexBits) * 2 ^ offsetBits := by
    rw [Nat.pow_add]
    ring
  refine ⟨?_, ?_, ?_⟩
  · rw [Nat.add_comm, Nat.add_mul_div_right _ _ (Nat.two_pow_pos _), Nat.div_eq_of_lt hbelow,
      Nat.zero_add]
  · rw [hlines, Nat.add_mul_div_right _ _ (Nat.two_pow_pos _), Nat.div_eq_of_lt hoffset,
      Nat.zero_add, Nat.add_mul_mod_self_right, Nat.mod_eq_of_lt hindex]
  · rw [hlines, Nat.add_mul_mod_self_right, Nat.mod_eq_of_lt hoffset]

end Digits

variable (layout : AddressLayout)

theorem offsetBits_le : layout.offsetBits ≤ 64 := (Nat.le_add_right _ _).trans layout.fits

theorem indexBits_le : layout.indexBits ≤ 64 := (Nat.le_add_left _ _).trans layout.fits

theorem tagBits_add_tagShift : layout.tagBits + layout.tagShift = 64 :=
  Nat.sub_add_cancel layout.fits

/-! ## Decoding -/

theorem toNat_offset_decode (address : UInt64) :
    (layout.decode address).offset.toNat = address.toNat % 2 ^ layout.offsetBits :=
  Word.toNat_and_lowMask address layout.offsetBits_le

theorem toNat_index_decode (address : UInt64) :
    (layout.decode address).index.toNat =
      address.toNat / 2 ^ layout.offsetBits % 2 ^ layout.indexBits := by
  rw [decode, Word.toNat_and_lowMask _ layout.indexBits_le, Word.toNat_shiftRight,
    Nat.one_shiftLeft]

theorem toNat_tag_decode (address : UInt64) :
    (layout.decode address).tag.toNat = address.toNat / 2 ^ layout.tagShift := by
  rw [decode, Word.toNat_shiftRight, Nat.one_shiftLeft]

theorem index_decode_lt (address : UInt64) :
    (layout.decode address).index.toNat < 2 ^ layout.indexBits := by
  rw [toNat_index_decode]
  exact Nat.mod_lt _ (Nat.two_pow_pos _)

theorem tag_decode_lt (address : UInt64) :
    (layout.decode address).tag.toNat < 2 ^ layout.tagBits := by
  rw [toNat_tag_decode]
  apply Nat.div_lt_of_lt_mul
  rw [← Nat.pow_add, Nat.add_comm, tagBits_add_tagShift]
  exact address.toNat_lt

/-! ## Composing -/

/-- The fields do not overlap, so joining their bits adds their values up. -/
theorem toNat_compose (fields : AddressFields) :
    (layout.compose fields).toNat =
      fields.tag.toNat % 2 ^ layout.tagBits * 2 ^ layout.tagShift +
        (fields.index.toNat % 2 ^ layout.indexBits * 2 ^ layout.offsetBits +
          fields.offset.toNat % 2 ^ layout.offsetBits) := by
  have hindex : layout.indexBits + layout.offsetBits ≤ 64 := by
    rw [Nat.add_comm]
    exact layout.fits
  rw [compose, UInt64.toNat_or, UInt64.toNat_or,
    Word.toNat_shiftLeft_and_lowMask _ layout.tagBits_add_tagShift.le,
    Word.toNat_shiftLeft_and_lowMask _ hindex, Word.toNat_and_lowMask _ layout.offsetBits_le]
  exact or_or_eq_add _ (Nat.mod_lt _ (Nat.two_pow_pos _)) (Nat.mod_lt _ (Nat.two_pow_pos _))

theorem compose_decode (address : UInt64) : layout.compose (layout.decode address) = address := by
  apply UInt64.toNat_inj.mp
  have hbelow : address.toNat % 2 ^ layout.tagShift =
      address.toNat / 2 ^ layout.offsetBits % 2 ^ layout.indexBits * 2 ^ layout.offsetBits +
        address.toNat % 2 ^ layout.offsetBits := by
    rw [tagShift, Nat.pow_add, Nat.mod_mul, Nat.add_comm, Nat.mul_comm]
  rw [toNat_compose, toNat_index_decode, toNat_offset_decode, Nat.mod_mod, Nat.mod_mod, ← hbelow,
    Nat.mod_eq_of_lt (layout.tag_decode_lt address), toNat_tag_decode, Nat.div_add_mod']

/-- A field keeps the bits of its width. -/
theorem toNat_decode_compose (fields : AddressFields) :
    (layout.decode (layout.compose fields)).tag.toNat =
        fields.tag.toNat % 2 ^ layout.tagBits ∧
      (layout.decode (layout.compose fields)).index.toNat =
        fields.index.toNat % 2 ^ layout.indexBits ∧
      (layout.decode (layout.compose fields)).offset.toNat =
        fields.offset.toNat % 2 ^ layout.offsetBits := by
  rw [toNat_tag_decode, toNat_index_decode, toNat_offset_decode, toNat_compose]
  exact digits_of_sum _ (Nat.mod_lt _ (Nat.two_pow_pos _)) (Nat.mod_lt _ (Nat.two_pow_pos _))

/-! ## Arithmetic in range -/

/-- The layout of two widths whose sum saturates at 32 bits. -/
def ofSaturatedWidths (offsetBits indexBits : Nat) : Except GeometryError AddressLayout :=
  if h : InRange.saturatingSum 32 offsetBits indexBits ≤ 64 then
    .ok ⟨offsetBits, indexBits, (InRange.saturatingSum_le_iff _ _ (by decide)).mp h⟩
  else
    .error (.addressWidth offsetBits indexBits)

/-- Decoding with widths of 32 bits and shifts that may have no result. -/
def decode? (address : UInt64) : Option AddressFields := do
  let tagShift ← InRange.sum? 32 layout.offsetBits layout.indexBits
  let offsetMask ← Word.lowMask? layout.offsetBits
  let indexMask ← Word.lowMask? layout.indexBits
  return {
    tag := (Word.shiftRight? address tagShift).getD 0
    index := (Word.shiftRight? address layout.offsetBits).getD 0 &&& indexMask
    offset := address &&& offsetMask }

/-- Composing with widths of 32 bits and shifts that may have no result. -/
def compose? (fields : AddressFields) : Option UInt64 := do
  let tagShift ← InRange.sum? 32 layout.offsetBits layout.indexBits
  let tagBits ← InRange.difference? (← InRange.difference? 64 layout.offsetBits) layout.indexBits
  let tagMask ← Word.lowMask? tagBits
  let indexMask ← Word.lowMask? layout.indexBits
  let offsetMask ← Word.lowMask? layout.offsetBits
  return (Word.shiftLeft? (fields.tag &&& tagMask) tagShift).getD 0 |||
    (Word.shiftLeft? (fields.index &&& indexMask) layout.offsetBits).getD 0 |||
    (fields.offset &&& offsetMask)

theorem ofSaturatedWidths_eq (offsetBits indexBits : Nat) :
    ofSaturatedWidths offsetBits indexBits = ofWidths offsetBits indexBits := by
  have hlimit : InRange.saturatingSum 32 offsetBits indexBits ≤ 64 ↔
      offsetBits + indexBits ≤ 64 :=
    InRange.saturatingSum_le_iff _ _ (by decide)
  unfold ofSaturatedWidths ofWidths
  by_cases hfits : offsetBits + indexBits ≤ 64
  · rw [dif_pos hfits, dif_pos (hlimit.mpr hfits)]
  · rw [dif_neg hfits, dif_neg (mt hlimit.mp hfits)]

theorem sum?_widths :
    InRange.sum? 32 layout.offsetBits layout.indexBits = some layout.tagShift := by
  apply InRange.sum?_of_lt
  exact layout.fits.trans_lt (by decide)

theorem decode?_eq (address : UInt64) : layout.decode? address = some (layout.decode address) := by
  simp only [decode?, sum?_widths, Word.lowMask?_eq, Word.getD_shiftRight?, Option.bind_eq_bind,
    Option.bind_some]
  rfl

theorem compose?_eq (fields : AddressFields) :
    layout.compose? fields = some (layout.compose fields) := by
  have hindex : layout.indexBits ≤ 64 - layout.offsetBits := by
    have := layout.fits
    omega
  have htag : 64 - layout.offsetBits - layout.indexBits = layout.tagBits := Nat.sub_sub _ _ _
  simp only [compose?, sum?_widths, Word.lowMask?_eq, Word.getD_shiftLeft?,
    InRange.difference?_of_le layout.offsetBits_le, InRange.difference?_of_le hindex, htag,
    Option.bind_eq_bind, Option.bind_some]
  rfl

theorem exists_ofWidths_eq_ok_iff (offsetBits indexBits : Nat) :
    (∃ layout, ofWidths offsetBits indexBits = .ok layout) ↔ offsetBits + indexBits ≤ 64 := by
  unfold ofWidths
  split <;> simp [*]

theorem widths_of_ofWidths {offsetBits indexBits : Nat} {layout : AddressLayout}
    (h : ofWidths offsetBits indexBits = .ok layout) :
    layout.offsetBits = offsetBits ∧ layout.indexBits = indexBits := by
  unfold ofWidths at h
  split at h
  next => cases h; exact ⟨rfl, rfl⟩
  next => cases h

/-- Two widths give a layout exactly if their sum, as a number, is at most 64,
whether sums saturate or not.  A layout takes an address apart by division,
puts it together again without loss, and cuts the fields of any address it
composes to their widths.  None of its calculations leaves its range. -/
theorem fields_lossless (offsetBits indexBits : Nat) :
    ofSaturatedWidths offsetBits indexBits = ofWidths offsetBits indexBits ∧
      ((∃ layout, ofWidths offsetBits indexBits = .ok layout) ↔ offsetBits + indexBits ≤ 64) ∧
      ∀ layout, ofWidths offsetBits indexBits = .ok layout →
        (∀ address,
          (layout.decode address).offset.toNat = address.toNat % 2 ^ offsetBits ∧
            (layout.decode address).index.toNat =
              address.toNat / 2 ^ offsetBits % 2 ^ indexBits ∧
            (layout.decode address).tag.toNat = address.toNat / 2 ^ (offsetBits + indexBits) ∧
            layout.compose (layout.decode address) = address ∧
            layout.decode? address = some (layout.decode address)) ∧
        ∀ fields,
          (layout.decode (layout.compose fields)).tag.toNat =
              fields.tag.toNat % 2 ^ (64 - offsetBits - indexBits) ∧
            (layout.decode (layout.compose fields)).index.toNat =
              fields.index.toNat % 2 ^ indexBits ∧
            (layout.decode (layout.compose fields)).offset.toNat =
              fields.offset.toNat % 2 ^ offsetBits ∧
            layout.compose? fields = some (layout.compose fields) := by
  refine ⟨ofSaturatedWidths_eq _ _, exists_ofWidths_eq_ok_iff _ _, ?_⟩
  intro layout hlayout
  obtain ⟨rfl, rfl⟩ := widths_of_ofWidths hlayout
  constructor
  · intro address
    exact ⟨layout.toNat_offset_decode address, layout.toNat_index_decode address,
      layout.toNat_tag_decode address, layout.compose_decode address, layout.decode?_eq address⟩
  · intro fields
    obtain ⟨htag, hindex, hoffset⟩ := layout.toNat_decode_compose fields
    rw [Nat.sub_sub]
    exact ⟨htag, hindex, hoffset, layout.compose?_eq fields⟩

end AddressLayout

end PseudoLru
