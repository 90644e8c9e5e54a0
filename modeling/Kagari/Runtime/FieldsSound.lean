import Kagari.Runtime.FieldLayout

/-!
# Struct fields are a record

Whatever is written to the fields of a struct, a slot holds the value that was last written to it, and tracing visits
the references that are held (`struct_fields_record`). A codec reads back what it wrote, in the domain that it admits
(`decode_stored`), and fields of a layout that was prepared have bytes of their own.
-/

namespace Kagari.Runtime

open Lib.Tiling List Option

/-! ## Integers as bytes -/

theorem fromBytes_toBytes (count n : Nat) : fromBytes (toBytes count n) = n % 256 ^ count := by
  induction count generalizing n with
  | zero => simp [toBytes, fromBytes, Nat.mod_one]
  | succ count ih =>
    have hpow : 256 ^ (count + 1) = 256 * 256 ^ count := Nat.pow_succ'
    rw [toBytes, fromBytes, ih, BitVec.toNat_ofNat, hpow, Nat.mod_mul]

variable {bits : BitVec 64} {ty : BuiltinType} {bytes' : List Byte} {id : HeapObjectId}
  {value : HeapValue}

/-- A signed value is in its low bits. -/
theorem signExtend_low {w : Nat} (hw : 0 < w) (hw' : w ≤ 64) (hlow : -2 ^ (w - 1) ≤ bits.toInt)
    (hhigh : bits.toInt ≤ 2 ^ (w - 1) - 1) : (BitVec.ofNat w bits.toNat).signExtend 64 = bits := by
  have hpow : (2 : Int) ^ w = 2 ^ (w - 1) * 2 := by
    obtain ⟨v, rfl⟩ := Nat.exists_eq_add_of_lt hw
    rw [Nat.zero_add, Nat.add_sub_cancel]
    exact Int.pow_succ 2 v
  have hdvd : 2 ^ w ∣ 2 ^ 64 := Nat.pow_dvd_pow 2 hw'
  have hlow' : (BitVec.ofNat w bits.toNat).toInt = bits.toInt := by
    calc (BitVec.ofNat w bits.toNat).toInt = (bits.toNat : Int).bmod (2 ^ w) := BitVec.toInt_ofNat' _
      _ = ((bits.toNat : Int).bmod (2 ^ 64)).bmod (2 ^ w) := (Int.bmod_bmod_of_dvd hdvd).symm
      _ = bits.toInt.bmod (2 ^ w) := by rw [← BitVec.toInt_eq_toNat_bmod]
      _ = bits.toInt := Int.bmod_eq_of_le (by push_cast; omega) (by push_cast; omega)
  rw [BitVec.signExtend, hlow', BitVec.ofInt_toInt]

/-! ## Scalars -/

namespace ScalarEncoding

variable {encoding : ScalarEncoding} {bits : BitVec 64}

/-- What is read back where `bits` were written. -/
def stored (encoding : ScalarEncoding) (bits : BitVec 64) : BitVec 64 :=
  if encoding.signed && encoding.width < 8 then (BitVec.ofNat (8 * encoding.width) bits.toNat).signExtend 64
  else BitVec.ofNat 64 (bits.toNat % 256 ^ encoding.width)

def admits (encoding : ScalarEncoding) (bits : BitVec 64) : Bool :=
  admitsBits encoding.representation (some encoding.ty) bits

theorem stored_of_lt (hsgn : (encoding.signed && decide (encoding.width < 8)) = false)
    (h : bits.toNat < 256 ^ encoding.width) : encoding.stored bits = bits := by
  unfold stored
  rw [hsgn, if_neg Bool.false_ne_true, Nat.mod_eq_of_lt h, BitVec.ofNat_toNat, BitVec.setWidth_eq]

/-- The low 32 bits of an integer in their range. -/
theorem signExtend_setWidth (hlow : -2 ^ 31 ≤ bits.toInt) (hhigh : bits.toInt ≤ 2 ^ 31 - 1) :
    (bits.setWidth 32).signExtend 64 = bits := by
  have hbits := signExtend_low (w := 32) (by decide) (by decide) hlow hhigh
  rwa [BitVec.ofNat_toNat] at hbits

/-- Admitted bits are the ones of a value, which is read back from what is stored. -/
theorem exists_value (h : ScalarEncoding.new ty = some encoding)
    (hbits : encoding.admits bits = true) : ∃ value : HeapValue,
      decode encoding.representation bits = some value ∧ value.encode = some (encoding.stored bits) ∧
      value.hasRepresentation encoding.representation = true ∧ encoding.admits (encoding.stored bits) = true := by
  have hint : bits.toInt = if 2 * bits.toNat < 2 ^ 64 then (bits.toNat : Int) else bits.toNat - (2 ^ 64 : Nat) :=
    BitVec.toInt_eq_toNat_cond bits
  have hwide := bits.isLt
  -- But for `unit` and the narrow floats, the bits are stored whole.
  have hwhole : ∀ value : HeapValue, encoding.stored bits = bits →
      decode encoding.representation bits = some value → value.encode = some bits →
      value.hasRepresentation encoding.representation = true → ∃ value : HeapValue,
        decode encoding.representation bits = some value ∧ value.encode = some (encoding.stored bits) ∧
        value.hasRepresentation encoding.representation = true ∧ encoding.admits (encoding.stored bits) = true :=
    fun value hstor hdec henc hrepr =>
      ⟨value, hdec, by rw [hstor, henc], hrepr, by rw [hstor]; exact hbits⟩
  cases ty with
  | never | string => cases h
  | unit =>
    obtain rfl : (⟨.unit, .unit, 0, false⟩ : ScalarEncoding) = encoding := some.inj h
    exact ⟨.unit, rfl, by simp [stored, Value.encode, Nat.mod_one], rfl, rfl⟩
  | f32 =>
    obtain rfl : (⟨.f32, .f32, 4, false⟩ : ScalarEncoding) = encoding := some.inj h
    refine ⟨.f32 (bits.setWidth 32), rfl, congrArg some (BitVec.eq_of_toNat_eq ?_), rfl, rfl⟩
    simp [stored]
  | bool =>
    obtain rfl : (⟨.bool, .bool, 1, false⟩ : ScalarEncoding) = encoding := some.inj h
    have hle : bits.toNat ≤ 1 := by simpa [admits, admitsBits, integerBounds] using hbits
    refine hwhole (.bool (bits.toNat ≠ 0)) (stored_of_lt rfl (by show bits.toNat < 256; omega)) (if_pos hle) ?_ rfl
    refine congrArg some (BitVec.eq_of_toNat_eq ?_)
    by_cases hzero : bits.toNat = 0
    · simp [hzero]
    · simp [hzero]
      omega
  | char =>
    obtain rfl : (⟨.char, .char, 4, false⟩ : ScalarEncoding) = encoding := some.inj h
    have hvld : bits.toNat.isValidChar := by
      by_contra hvld
      simp [admits, admitsBits, decodeChar, hvld] at hbits
    have hlt : bits.toNat < 0x110000 := by rcases hvld with h | h <;> omega
    refine hwhole (.char (Char.ofNatAux bits.toNat hvld)) (stored_of_lt rfl (by show bits.toNat < 256 ^ 4; omega))
      ?_ (congrArg some (BitVec.eq_of_toNat_eq ?_)) rfl
    · have hchar : decodeChar bits = some (Char.ofNatAux bits.toNat hvld) := dif_pos hvld
      show (decodeChar bits).map _ = _
      rw [hchar]
      rfl
    · show (BitVec.ofNat 64 bits.toNat).toNat = bits.toNat
      simp
  | f64 =>
    obtain rfl : (⟨.f64, .f64, 8, false⟩ : ScalarEncoding) = encoding := some.inj h
    exact hwhole (.f64 bits) (stored_of_lt rfl hwide) rfl rfl rfl
  | i64 =>
    obtain rfl : (⟨.i64, .i64, 8, true⟩ : ScalarEncoding) = encoding := some.inj h
    exact hwhole (.i64 bits) (stored_of_lt rfl hwide) rfl rfl rfl
  | u64 =>
    obtain rfl : (⟨.u64, .u64, 8, false⟩ : ScalarEncoding) = encoding := some.inj h
    exact hwhole (.u64 bits) (stored_of_lt rfl hwide) rfl rfl rfl
  | i8 =>
    obtain rfl : (⟨.i8, .i32, 1, true⟩ : ScalarEncoding) = encoding := some.inj h
    have hbnds : -2 ^ 7 ≤ bits.toInt ∧ bits.toInt ≤ 2 ^ 7 - 1 := by
      simpa [admits, admitsBits, integerBounds] using hbits
    exact hwhole (.i32 (bits.setWidth 32)) (signExtend_low (by decide) (by decide) hbnds.1 hbnds.2) rfl
      (congrArg some (signExtend_setWidth (by omega) (by omega))) rfl
  | i16 =>
    obtain rfl : (⟨.i16, .i32, 2, true⟩ : ScalarEncoding) = encoding := some.inj h
    have hbnds : -2 ^ 15 ≤ bits.toInt ∧ bits.toInt ≤ 2 ^ 15 - 1 := by
      simpa [admits, admitsBits, integerBounds] using hbits
    exact hwhole (.i32 (bits.setWidth 32)) (signExtend_low (by decide) (by decide) hbnds.1 hbnds.2) rfl
      (congrArg some (signExtend_setWidth (by omega) (by omega))) rfl
  | i32 =>
    obtain rfl : (⟨.i32, .i32, 4, true⟩ : ScalarEncoding) = encoding := some.inj h
    have hbnds : -2 ^ 31 ≤ bits.toInt ∧ bits.toInt ≤ 2 ^ 31 - 1 := by
      simpa [admits, admitsBits, integerBounds] using hbits
    exact hwhole (.i32 (bits.setWidth 32)) (signExtend_low (by decide) (by decide) hbnds.1 hbnds.2) rfl
      (congrArg some (signExtend_setWidth hbnds.1 hbnds.2)) rfl
  | u8 =>
    obtain rfl : (⟨.u8, .i64, 1, false⟩ : ScalarEncoding) = encoding := some.inj h
    have hbnds : 0 ≤ bits.toInt ∧ bits.toInt ≤ 2 ^ 8 - 1 := by
      simpa [admits, admitsBits, integerBounds] using hbits
    exact hwhole (.i64 bits) (stored_of_lt rfl (by show bits.toNat < 2 ^ 8; omega)) rfl rfl rfl
  | u16 =>
    obtain rfl : (⟨.u16, .i64, 2, false⟩ : ScalarEncoding) = encoding := some.inj h
    have hbnds : 0 ≤ bits.toInt ∧ bits.toInt ≤ 2 ^ 16 - 1 := by
      simpa [admits, admitsBits, integerBounds] using hbits
    exact hwhole (.i64 bits) (stored_of_lt rfl (by show bits.toNat < 2 ^ 16; omega)) rfl rfl rfl
  | u32 =>
    obtain rfl : (⟨.u32, .i64, 4, false⟩ : ScalarEncoding) = encoding := some.inj h
    have hbnds : 0 ≤ bits.toInt ∧ bits.toInt ≤ 2 ^ 32 - 1 := by
      simpa [admits, admitsBits, integerBounds] using hbits
    exact hwhole (.i64 bits) (stored_of_lt rfl (by show bits.toNat < 2 ^ 32; omega)) rfl rfl rfl

theorem representation_ne_generic (h : encoding.Prepared) : encoding.representation ≠ .generic := by
  unfold Prepared at h
  generalize encoding.ty = ty at h
  cases ty <;> first | (cases h; done) | (obtain rfl := some.inj h; decide)

theorem storedWidth_width (h : encoding.Prepared) : storedWidth encoding.width = true := by
  unfold Prepared at h
  generalize encoding.ty = ty at h
  cases ty <;> first | (cases h; done) | (obtain rfl := some.inj h; rfl)

end ScalarEncoding

/-! ## Reads and writes of bytes -/

variable {encoding : ScalarEncoding}

section Bytes

variable {bytes written : List Byte} {offset : Nat}

theorem bytesAt_overwrite (h : offset + written.length ≤ bytes.length) :
    bytesAt (overwrite bytes offset written) offset written.length = some written := by
  unfold bytesAt
  rw [overwrite_length h, if_pos h]
  exact congrArg some (slice_overwrite h)

theorem bytesAt_overwrite_apart (h : offset + written.length ≤ bytes.length) {start length : Nat}
    (hapart : start + length ≤ offset ∨ offset + written.length ≤ start) :
    bytesAt (overwrite bytes offset written) start length = bytesAt bytes start length := by
  unfold bytesAt
  rw [overwrite_length h]
  exact if_congr Iff.rfl (congrArg some (slice_overwrite_apart h hapart)) rfl

theorem readScalar_congr
    (h : bytesAt bytes' offset encoding.width = bytesAt bytes offset encoding.width) :
    readScalar bytes' offset encoding = readScalar bytes offset encoding := by
  unfold readScalar
  rw [h]

theorem readManaged_congr
    (h : bytesAt bytes' offset managedWidth = bytesAt bytes offset managedWidth) :
    readManaged bytes' offset = readManaged bytes offset := by
  unfold readManaged
  rw [h]

/-- What a scalar write leaves, and what is read of it. -/
theorem writeScalar_some (h : encoding.Prepared)
    (hfits : offset + encoding.width ≤ bytes.length) (hbits : encoding.admits bits = true) :
    writeScalar bytes offset encoding bits = some (overwrite bytes offset (toBytes encoding.width bits.toNat)) ∧
      readScalar (overwrite bytes offset (toBytes encoding.width bits.toNat)) offset encoding =
        some (encoding.stored bits) := by
  have hwidth := encoding.storedWidth_width h
  obtain ⟨_, -, -, -, hstor⟩ := encoding.exists_value h hbits
  have hread := @bytesAt_overwrite bytes (toBytes encoding.width bits.toNat) offset (by rwa [toBytes_length])
  rw [toBytes_length] at hread
  constructor
  · unfold writeScalar
    rw [show admitsBits encoding.representation (some encoding.ty) bits = true from hbits, hwidth]
    simp [Nat.not_lt.2 hfits]
  · have hext : (if encoding.signed && decide (encoding.width < 8) then
        (BitVec.ofNat (8 * encoding.width) (fromBytes (toBytes encoding.width bits.toNat))).signExtend 64
        else BitVec.ofNat 64 (fromBytes (toBytes encoding.width bits.toNat))) = encoding.stored bits := by
      rw [fromBytes_toBytes]
      unfold ScalarEncoding.stored
      refine if_congr Iff.rfl (congrArg (BitVec.signExtend 64) (BitVec.eq_of_toNat_eq ?_)) rfl
      rw [BitVec.toNat_ofNat, BitVec.toNat_ofNat, Nat.pow_mul, Nat.mod_mod]
    unfold readScalar
    rw [hread, hwidth]
    simp only [bind_eq_bind, bind_some, Bool.not_true, Bool.false_eq_true, if_false, hext]
    exact if_pos hstor

theorem managedValue_tag {tag : Nat} (h : managedTag value = some (tag, id)) :
    tag < 256 ∧ managedValue id tag = some value := by
  cases value <;> first | (cases h; done) | (cases h; exact ⟨by decide, rfl⟩)

theorem ofNat_fromBytes (word : BitVec 32) : BitVec.ofNat 32 (fromBytes (toBytes 4 word.toNat)) = word := by
  rw [fromBytes_toBytes]
  refine BitVec.eq_of_toNat_eq ?_
  rw [BitVec.toNat_ofNat]
  have hword := word.isLt
  omega

/-- What a managed write leaves, and what is read of it. -/
theorem writeManaged_some {tag : Nat} (h : managedTag value = some (tag, id))
    (hfits : offset + managedWidth ≤ bytes.length) : ∃ reference : List Byte, reference.length = managedWidth ∧
      writeManaged bytes offset value = some (overwrite bytes offset reference) ∧
      readManaged (overwrite bytes offset reference) offset = some value := by
  obtain ⟨htag, hval⟩ := managedValue_tag h
  let reference := toBytes 1 tag ++ toBytes 4 id.owner.toNat ++ toBytes 4 id.slot.toNat ++
    toBytes 4 id.generation.toNat
  have hlen : reference.length = managedWidth := rfl
  have hread := @bytesAt_overwrite bytes reference offset hfits
  have htag' : fromBytes (toBytes 1 tag) = tag := by
    rw [fromBytes_toBytes]
    omega
  refine ⟨reference, hlen, ?_, ?_⟩
  · unfold writeManaged
    rw [h]
    exact if_neg (Nat.not_lt.2 hfits)
  · unfold readManaged
    rw [← hlen, hread]
    show managedValue ⟨BitVec.ofNat 32 (fromBytes (toBytes 4 id.owner.toNat)),
      BitVec.ofNat 32 (fromBytes (toBytes 4 id.slot.toNat)),
      BitVec.ofNat 32 (fromBytes (toBytes 4 id.generation.toNat))⟩ (fromBytes (toBytes 1 tag)) = some value
    rw [ofNat_fromBytes, ofNat_fromBytes, ofNat_fromBytes, htag']
    exact hval

theorem writeManaged_none (h : managedTag value = none) :
    writeManaged bytes offset value = none := by
  unfold writeManaged
  rw [h]
  rfl

end Bytes

/-! ## Fields -/

variable {offset : Nat}

namespace StoredField

/-- The values that a field can hold. -/
def admits (field : StoredField) (value : HeapValue) : Bool :=
  match field with
  | scalar _ encoding =>
    value.hasRepresentation encoding.representation && value.encode.any fun bits => encoding.admits bits
  | managed _ => (managedTag value).isSome

/-- The bytes of a field hold a value. -/
def Holds (field : StoredField) (bytes : List Byte) (value : HeapValue) : Prop :=
  field.admits value = true ∧ match field with
    | scalar offset encoding => readScalar bytes offset encoding = value.encode
    | managed offset => readManaged bytes offset = some value

/-- A write of a field: it holds the value, and the others hold what they did. -/
structure Wrote (field : StoredField) (value : HeapValue) (bytes written : List Byte) : Prop where
  length : written.length = bytes.length
  holds : field.Holds written value
  others : ∀ (other : StoredField) (held : HeapValue),
    other.range.2 ≤ field.range.1 ∨ field.range.2 ≤ other.range.1 → other.Holds bytes held → other.Holds written held

variable {field : StoredField} {bytes : List Byte} {value : HeapValue}

theorem wrote_overwrite {reference : List Byte} (hlen : field.range.1 + reference.length = field.range.2)
    (hfits : field.range.2 ≤ bytes.length) (h : field.Holds (overwrite bytes field.range.1 reference) value) :
    field.Wrote value bytes (overwrite bytes field.range.1 reference) := by
  have hinsd : field.range.1 + reference.length ≤ bytes.length := by omega
  refine ⟨overwrite_length hinsd, h, fun other held hapart hheld => ⟨hheld.1, ?_⟩⟩
  have hapart' : other.range.2 ≤ field.range.1 ∨ field.range.1 + reference.length ≤ other.range.1 := by omega
  cases other with
  | scalar offset encoding => exact (readScalar_congr (bytesAt_overwrite_apart hinsd hapart')).trans hheld.2
  | managed offset => exact (readManaged_congr (bytesAt_overwrite_apart hinsd hapart')).trans hheld.2

theorem writeScalar_wrote (h : encoding.Prepared)
    (hfits : offset + encoding.width ≤ bytes.length) (hbits : encoding.admits bits = true) :
    ∃ value written, decode encoding.representation bits = some value ∧
      writeScalar bytes offset encoding bits = some written ∧ (scalar offset encoding).Wrote value bytes written := by
  obtain ⟨value, hdec, henc, hrepr, hstor⟩ := encoding.exists_value h hbits
  obtain ⟨hwrt, hread⟩ := writeScalar_some h hfits hbits
  refine ⟨value, _, hdec, hwrt, wrote_overwrite (by rw [toBytes_length]; rfl) hfits ⟨?_, hread.trans henc.symm⟩⟩
  simp only [admits, hrepr, henc, any_some, hstor, Bool.and_self]

theorem writeScalar_refused
    (hbits : encoding.admits bits = false) : writeScalar bytes offset encoding bits = none := by
  unfold writeScalar
  rw [show admitsBits encoding.representation (some encoding.ty) bits = false from hbits]
  rfl

end StoredField

variable {field : StoredField} {values : List HeapValue}

namespace StructStorageLayout

variable {layout : StructStorageLayout} {types : List Ty}

theorem Laid.prepared (h : layout.Laid types) {slot offset : Nat}
    (hfld : layout.fields[slot]? = some (.scalar offset encoding)) :
    types[slot]? = some (.builtin encoding.ty) ∧ encoding.Prepared := by
  have hstrs := h.stores
  generalize layout.fields = fields at hstrs hfld
  clear h
  induction hstrs generalizing slot with
  | nil => cases hfld
  | cons hfst _ ih =>
    cases slot with
    | zero =>
      cases hfld
      exact ⟨congrArg some hfst.1, hfst.2⟩
    | succ slot => exact ih hfld

theorem Laid.not_scalar (h : layout.Laid types) {slot offset : Nat}
    (hfld : layout.fields[slot]? = some (.managed offset)) (hty : types[slot]? = some
      (.builtin ty)) : ty = .string := by
  have hstrs := h.stores
  generalize layout.fields = fields at hstrs hfld
  clear h
  induction hstrs generalizing slot with
  | nil => cases hfld
  | cons hfst _ ih =>
    cases slot with
    | zero =>
      cases hfld
      exact hfst ty (some.inj hty)
    | succ slot =>
      rw [getElem?_cons_succ] at hfld hty
      exact ih hty hfld

theorem Laid.pairwise (h : layout.Laid types) : layout.fields.Pairwise fun a b => a.range.2 ≤ b.range.1 :=
  pairwise_map.1 h.ranges.apart

theorem Laid.inside (h : layout.Laid types) : ∀ field ∈ layout.fields, field.range.2 ≤ layout.size :=
  fun _ hfld => (h.ranges.inside _ (mem_map_of_mem hfld)).2

theorem Laid.apart (h : layout.Laid types) {slot other : Nat} {field field' : StoredField} (hne : other ≠ slot)
    (hfld : layout.fields[slot]? = some field) (hother : layout.fields[other]? = some field') :
    field'.range.2 ≤ field.range.1 ∨ field.range.2 ≤ field'.range.1 := by
  obtain ⟨hslot, rfl⟩ := List.getElem?_eq_some_iff.1 hfld
  obtain ⟨hslot', rfl⟩ := List.getElem?_eq_some_iff.1 hother
  rcases Nat.lt_or_gt_of_ne hne with hlt | hlt
  · exact .inl (List.pairwise_iff_getElem.1 h.pairwise other slot hslot' hslot hlt)
  · exact .inr (List.pairwise_iff_getElem.1 h.pairwise slot other hslot hslot' hlt)

/-! ## Records -/

/-- The first slots of some bytes hold values. -/
structure Holding (layout : StructStorageLayout) (count : Nat) (bytes : List Byte) (values : List HeapValue) :
    Prop where
  length : bytes.length = layout.size
  holds : ∀ slot field value, slot < count → layout.fields[slot]? = some field → values[slot]? = some value →
    field.Holds bytes value

theorem Holding.wrote {count slot : Nat} {bytes written : List Byte}
    (h : layout.Holding count bytes values) (hlaid : layout.Laid types)
    (hfld : layout.fields[slot]? = some field) (hwrote : field.Wrote value bytes written) :
    layout.Holding count written (values.set slot value) := by
  refine ⟨hwrote.length.trans h.length, fun other field' held hcnt hfld' hheld => ?_⟩
  rw [getElem?_set] at hheld
  split at hheld
  next heq =>
    subst heq
    cases hfld.symm.trans hfld'
    split at hheld
    · cases hheld
      exact hwrote.holds
    · cases hheld
  next hne =>
    exact hwrote.others field' held (hlaid.apart (Ne.symm hne) hfld hfld')
      (h.holds other field' held hcnt hfld' hheld)

/-- The field behind those that hold values is written. -/
theorem Holding.extend {count : Nat} {bytes written : List Byte}
    (h : layout.Holding count bytes values) (hlaid : layout.Laid types)
    (hfld : layout.fields[count]? = some field) (hval : values[count]? = some value)
    (hwrote : field.Wrote value bytes written) : layout.Holding (count + 1) written values := by
  refine ⟨hwrote.length.trans h.length, fun other field' held hcnt hfld' hheld => ?_⟩
  rcases Nat.lt_succ_iff_lt_or_eq.1 hcnt with hlt | rfl
  · exact hwrote.others field' held (hlaid.apart (Nat.ne_of_lt hlt) hfld hfld')
      (h.holds other field' held hlt hfld' hheld)
  · cases hfld.symm.trans hfld'
    cases hval.symm.trans hheld
    exact hwrote.holds

end StructStorageLayout

/-- A write of a field: of a value, or of the bits of a scalar. -/
inductive FieldWrite where
  | set (slot : Nat) (value : HeapValue)
  | setScalar (slot : Nat) (expected : BuiltinType) (bits : BitVec 64)

namespace FieldWrite

/-- The slot and the value of a write that the layout admits. -/
def admitted (layout : StructStorageLayout) : FieldWrite → Option (Nat × HeapValue)
  | set slot value =>
    match layout.fields[slot]? with
    | some field => if field.admits value then some (slot, value) else none
    | none => none
  | setScalar slot expected bits =>
    match layout.fields[slot]? with
    | some (.scalar _ encoding) =>
      if encoding.ty = expected ∧ encoding.admits bits then (decode encoding.representation bits).map (slot, ·)
      else none
    | _ => none

/-- The record after a write. -/
def record (layout : StructStorageLayout) (values : List HeapValue) (write : FieldWrite) : List HeapValue :=
  match write.admitted layout with
  | some (slot, value) => values.set slot value
  | none => values

def apply (view : StructView) : FieldWrite → Option StructView
  | set slot value => view.set slot value
  | setScalar slot expected bits => view.setScalar slot expected bits

/-- A write that is refused changes nothing. -/
def step (view : StructView) (write : FieldWrite) : StructView := (write.apply view).getD view

variable {layout : StructStorageLayout} {types : List Ty} {view : StructView}

/-- The result of a write that writes a value to a slot, or nothing. -/
def Does (view : StructView) (result : Option StructView) : Option (Nat × HeapValue) → Prop
  | none => result = none
  | some (slot, value) => ∃ field written, view.description.fields[slot]? = some field ∧
      result = some { view with bytes := written } ∧ field.Wrote value view.bytes written

theorem fits (hlaid : view.description.Laid types) (hlen : view.bytes.length = view.description.size) {slot : Nat}
    (hfld : view.description.fields[slot]? = some field) :
    field.range.2 ≤ view.bytes.length :=
  hlen ▸ hlaid.inside field (mem_of_getElem? hfld)

theorem set_does (hlaid : view.description.Laid types) (hlen : view.bytes.length = view.description.size)
    (slot : Nat) (value : HeapValue) : Does view (view.set slot value)
      ((set slot value).admitted view.description) := by
  simp only [admitted, StructView.set]
  cases hfld : view.description.fields[slot]? with
  | none => exact rfl
  | some field =>
    have hfits := fits hlaid hlen hfld
    cases field with
    | scalar offset encoding =>
      obtain ⟨-, hprep⟩ := hlaid.prepared hfld
      obtain hrepr | hrepr :=
        Bool.eq_false_or_eq_true (value.hasRepresentation encoding.representation)
      · obtain henc | ⟨bits, henc⟩ := eq_none_or_eq_some value.encode
        · simp [Does, StoredField.admits, hrepr, henc]
        · obtain hbits | hbits := Bool.eq_false_or_eq_true (encoding.admits bits)
          · obtain ⟨value', written, hdec, hwrt, hwrote⟩ := StoredField.writeScalar_wrote hprep hfits hbits
            have hval := decode_encode (encoding.representation_ne_generic hprep) hrepr henc
            cases hdec.symm.trans hval
            simp only [StoredField.admits, hrepr, henc, any_some, hbits, Bool.and_self, if_true,
              bind_eq_bind, bind_some, Bool.not_true, Bool.false_eq_true, if_false, hwrt]
            exact ⟨_, written, hfld, rfl, hwrote⟩
          · simp [Does, StoredField.admits, hrepr, henc, hbits, StoredField.writeScalar_refused hbits]
      · simp [Does, StoredField.admits, hrepr]
    | managed offset =>
      obtain htag | ⟨⟨tag, id⟩, htag⟩ := eq_none_or_eq_some (managedTag value)
      · simp [Does, StoredField.admits, htag, writeManaged_none htag]
      · obtain ⟨reference, href, hwrt, hread⟩ := writeManaged_some htag hfits
        simp only [StoredField.admits, htag, isSome_some, if_true, bind_eq_bind, hwrt, bind_some]
        refine ⟨_, _, hfld, rfl, StoredField.wrote_overwrite ?_ hfits ⟨?_, hread⟩⟩
        · rw [href]
          rfl
        · simp [StoredField.admits, htag]

theorem setScalar_does (hlaid : view.description.Laid types) (hlen : view.bytes.length = view.description.size)
    (slot : Nat) (expected : BuiltinType) (bits : BitVec 64) :
    Does view (view.setScalar slot expected bits) ((setScalar slot expected bits).admitted view.description) := by
  simp only [admitted, StructView.setScalar]
  cases hfld : view.description.fields[slot]? with
  | none => exact rfl
  | some field =>
    cases field with
    | managed offset => exact rfl
    | scalar offset encoding =>
      obtain ⟨-, hprep⟩ := hlaid.prepared hfld
      simp only [bind_eq_bind, bind_some]
      by_cases hty : encoding.ty = expected
      · cases hbits : encoding.admits bits with
        | false =>
          rw [if_neg (not_not.2 hty), if_neg (fun h => Bool.false_ne_true h.2), StoredField.writeScalar_refused hbits]
          exact rfl
        | true =>
          obtain ⟨value', written, hdec, hwrt, hwrote⟩ :=
            StoredField.writeScalar_wrote hprep (fits hlaid hlen hfld) hbits
          rw [if_neg (not_not.2 hty), if_pos ⟨hty, rfl⟩, hdec, hwrt]
          exact ⟨_, written, hfld, rfl, hwrote⟩
      · rw [if_pos hty, if_neg (fun h => hty h.1)]
        exact rfl

/-- A write does what is admitted, and nothing else is written. -/
theorem apply_does (hlaid : view.description.Laid types) (hlen : view.bytes.length = view.description.size)
    (write : FieldWrite) : Does view (write.apply view) (write.admitted view.description) := by
  cases write with
  | set slot value => exact set_does hlaid hlen slot value
  | setScalar slot expected bits => exact setScalar_does hlaid hlen slot expected bits

end FieldWrite

/-! ## Runs -/

section Runs

variable {layout : StructStorageLayout} {types : List Ty} {view : StructView} {values : List HeapValue}

/-- A struct whose slots hold the values of a record. -/
structure StructView.Record (view : StructView) (layout : StructStorageLayout) (values : List HeapValue) : Prop where
  description : view.description = layout
  slots : values.length = layout.fields.length
  holding : layout.Holding layout.fields.length view.bytes values

theorem StructView.Record.step (h : view.Record layout values) (hlaid : layout.Laid types) (write : FieldWrite) :
    (write.step view).Record layout (write.record layout values) := by
  obtain rfl := h.description
  have hdoes := write.apply_does hlaid h.holding.length
  unfold FieldWrite.step FieldWrite.record
  cases hadm : write.admitted view.description with
  | none =>
    rw [hadm] at hdoes
    rw [show write.apply view = none from hdoes]
    exact h
  | some admitted =>
    obtain ⟨slot, value⟩ := admitted
    rw [hadm] at hdoes
    obtain ⟨field, written, hfld, hwrt, hwrote⟩ := hdoes
    rw [hwrt]
    exact ⟨rfl, (length_set ..).trans h.slots, h.holding.wrote hlaid hfld hwrote⟩

/-- Values that the fields admit are written. -/
theorem setAll_of_admits {description : StructStorageLayout} {types : List Ty} (hlaid : description.Laid types)
    (values : List HeapValue) : ∀ {slot : Nat} {view : StructView}, view.description = description →
    view.bytes.length = description.size →
    (∀ i value, values[i]? = some value → ∃ field,
      description.fields[slot + i]? = some field ∧ field.admits value = true) →
    ∃ final, view.setAll values slot = some final := by
  induction values with
  | nil => exact fun {_ view} _ _ _ => ⟨view, rfl⟩
  | cons value values ih =>
    intro slot view hdesc hlen h
    subst hdesc
    obtain ⟨field, hfld, hadm⟩ := h 0 value rfl
    have hdoes := FieldWrite.set_does hlaid hlen slot value
    simp only [FieldWrite.admitted, show view.description.fields[slot]? = some field from hfld, hadm, if_true] at hdoes
    obtain ⟨_, written, -, hset, hwrote⟩ := hdoes
    have hrest := @ih (slot + 1) { view with bytes := written } rfl (hwrote.length.trans hlen) fun i other hi => by
      rw [Nat.add_assoc, Nat.add_comm 1]
      exact h (i + 1) other hi
    unfold StructView.setAll
    rw [hset]
    exact hrest

/-- The loop that writes the values of a new struct. -/
theorem setAll_holding (hlaid : layout.Laid types) (rest : List HeapValue) : ∀ {count : Nat} {view final : StructView},
    view.description = layout → layout.Holding count view.bytes values → values.drop count = rest →
    view.setAll rest count = some final →
      final.description = layout ∧ layout.Holding (count + rest.length) final.bytes values := by
  induction rest with
  | nil =>
    intro count view final hdesc h _ hset
    cases hset
    exact ⟨hdesc, h⟩
  | cons value rest ih =>
    intro count view final hdesc h hdrop hset
    obtain ⟨first, hfst, hrest⟩ := bind_eq_some_iff.1 hset
    obtain rfl := hdesc
    have hval : values[count]? = some value := by
      have hhead := congrArg (·[0]?) hdrop
      simpa using hhead
    have hdoes := (FieldWrite.set count value).apply_does hlaid h.length
    cases hadm : (FieldWrite.set count value).admitted view.description with
    | none =>
      rw [hadm] at hdoes
      cases hfst.symm.trans hdoes
    | some admitted =>
      obtain ⟨slot, value'⟩ := admitted
      obtain ⟨rfl, rfl⟩ : slot = count ∧ value' = value := by
        unfold FieldWrite.admitted at hadm
        dsimp only at hadm
        split at hadm
        · split at hadm
          · cases hadm
            exact ⟨rfl, rfl⟩
          · cases hadm
        · cases hadm
      rw [hadm] at hdoes
      obtain ⟨field, written, hfld, hwrt, hwrote⟩ := hdoes
      cases hfst.symm.trans hwrt
      have hnext := @ih (slot + 1) { view with bytes := written } final rfl (h.extend hlaid hfld hval hwrote)
        (by rw [← drop_drop, hdrop]; rfl) hrest
      rwa [Nat.add_assoc, Nat.add_comm 1, ← length_cons] at hnext

theorem StructView.Record.run (hlaid : layout.Laid types) (writes : List FieldWrite) : ∀ {view : StructView}
    {values : List HeapValue}, view.Record layout values →
      (writes.foldl FieldWrite.step view).Record layout (writes.foldl (FieldWrite.record layout) values) := by
  induction writes with
  | nil => exact fun h => h
  | cons write writes ih => exact fun h => ih (h.step hlaid write)

/-- A slot reads as the value of the record. -/
theorem StructView.Record.get (h : view.Record layout values) (hlaid : layout.Laid types) (slot : Nat) :
    view.get slot = values[slot]? := by
  obtain rfl := h.description
  unfold StructView.get
  cases hfld : view.description.fields[slot]? with
  | none =>
    rw [List.getElem?_eq_none (by rw [h.slots]; exact List.getElem?_eq_none_iff.1 hfld)]
    rfl
  | some field =>
    obtain ⟨hslot, -⟩ := List.getElem?_eq_some_iff.1 hfld
    obtain ⟨value, hval⟩ : ∃ value, values[slot]? = some value :=
      ⟨_, List.getElem?_eq_getElem (h.slots ▸ hslot)⟩
    have hhld := h.holding.holds slot field value hslot hfld hval
    rw [hval]
    cases field with
    | managed offset => exact hhld.2
    | scalar offset encoding =>
      obtain ⟨-, hprep⟩ := hlaid.prepared hfld
      obtain ⟨hadms, hread⟩ := hhld
      rw [StoredField.admits, Bool.and_eq_true, Option.any_eq_true] at hadms
      obtain ⟨hrepr, bits, henc, -⟩ := hadms
      simp only [Option.bind_eq_bind, Option.bind_some, hread, henc]
      exact decode_encode (encoding.representation_ne_generic hprep) hrepr henc

/-- The bits of a scalar slot are those of its value. -/
theorem StructView.Record.scalar (h : view.Record layout values) (hlaid : layout.Laid types) (slot : Nat)
    (ty : BuiltinType) : view.scalar slot ty =
      if types[slot]? = some (.builtin ty) ∧ ty ≠ .string then values[slot]?.bind Value.encode else none := by
  obtain rfl := h.description
  unfold StructView.scalar
  cases hfld : view.description.fields[slot]? with
  | none =>
    have hnone : values[slot]? = none :=
      List.getElem?_eq_none (by rw [h.slots]; exact List.getElem?_eq_none_iff.1 hfld)
    rw [hnone]
    exact (ite_self _).symm
  | some field =>
    obtain ⟨hslot, -⟩ := List.getElem?_eq_some_iff.1 hfld
    cases field with
    | managed offset =>
      rw [if_neg fun hty => hty.2 (hlaid.not_scalar hfld hty.1)]
      rfl
    | scalar offset encoding =>
      obtain ⟨hty, hprep⟩ := hlaid.prepared hfld
      obtain ⟨value, hval⟩ : ∃ value, values[slot]? = some value :=
        ⟨_, List.getElem?_eq_getElem (h.slots ▸ hslot)⟩
      obtain ⟨-, hread⟩ := h.holding.holds slot _ _ hslot hfld hval
      simp only [bind_eq_bind, bind_some]
      by_cases hexpd : encoding.ty = ty
      · obtain rfl := hexpd
        have hstrg : encoding.ty ≠ .string := by
          intro hstrg
          rw [ScalarEncoding.Prepared, hstrg] at hprep
          cases hprep
        rw [if_neg (not_not.2 rfl), if_pos ⟨hty, hstrg⟩, hval]
        exact hread
      · rw [if_pos hexpd, if_neg]
        rintro ⟨hty', -⟩
        exact hexpd (Ty.builtin.inj (some.inj (hty.symm.trans hty')))

/-- The references are the slots whose values are references. -/
theorem StructView.Record.references (h : view.Record layout values) (hlaid : layout.Laid types) (slot : Nat) :
    slot ∈ layout.references ↔ ∃ value, values[slot]? = some value ∧ (managedTag value).isSome = true := by
  rw [hlaid.references, mem_managedSlots]
  constructor
  · rintro ⟨offset, hfld⟩
    obtain ⟨hslot, -⟩ := List.getElem?_eq_some_iff.1 hfld
    refine ⟨_, List.getElem?_eq_getElem (h.slots ▸ hslot), ?_⟩
    exact (h.holding.holds slot _ _ hslot hfld (List.getElem?_eq_getElem (h.slots ▸ hslot))).1
  · rintro ⟨value, hval, hman⟩
    obtain ⟨hslot, -⟩ := List.getElem?_eq_some_iff.1 hval
    obtain ⟨field, hfld⟩ : ∃ field, layout.fields[slot]? = some field :=
      ⟨_, List.getElem?_eq_getElem (h.slots ▸ hslot)⟩
    cases field with
    | managed offset => exact ⟨offset, hfld⟩
    | scalar offset encoding =>
      obtain ⟨hadms, -⟩ := h.holding.holds slot _ value (h.slots ▸ hslot) hfld hval
      rw [StoredField.admits, Bool.and_eq_true, Option.any_eq_true] at hadms
      obtain ⟨-, bits, henc, -⟩ := hadms
      cases value <;> first | (cases hman; done) | cases henc

/-- Readable slots are visited one by one. -/
theorem visit_eq (slots : List Nat) (h : ∀ slot ∈ slots, (view.get slot).isSome = true) :
    view.visit slots = (slots.filterMap view.get, true) := by
  induction slots with
  | nil => rfl
  | cons slot slots ih =>
    obtain ⟨value, hval⟩ := isSome_iff_exists.1 (h slot mem_cons_self)
    rw [StructView.visit, hval, filterMap_cons_some hval, ih fun other hother =>
      h other (mem_cons_of_mem _ hother)]

/-- A struct whose fields have a layout that was prepared is a record: it holds the values it was made of, and then the
ones that were last written. A write is refused where its slot does not admit it, and changes nothing. -/
theorem struct_fields_record (h : StructStorageLayout.prepare types = some layout) :
    (layout.fields.Pairwise fun a b => a.range.2 ≤ b.range.1) ∧ (∀ field ∈ layout.fields, field.range.2 ≤ layout.size) ∧
    ∀ (values : List HeapValue) (view : StructView), values.length = types.length →
      StructView.setAll ⟨layout, List.replicate layout.size 0⟩ values 0 = some view → ∀ writes : List FieldWrite,
        let final := writes.foldl FieldWrite.step view
        let record := writes.foldl (FieldWrite.record layout) values
        (∀ write : FieldWrite, (write.apply final).isSome = (write.admitted layout).isSome) ∧
        (∀ slot, final.get slot = record[slot]?) ∧
        (∀ slot ty, final.scalar slot ty =
          if types[slot]? = some (.builtin ty) ∧ ty ≠ .string then record[slot]?.bind Value.encode else none) ∧
        final.trace = (layout.references.reverse.filterMap (record[·]?), true) ∧ layout.references.Nodup ∧
        ∀ slot, slot ∈ layout.references ↔ ∃ value, record[slot]? = some value ∧ (managedTag value).isSome = true := by
  have hlaid := StructStorageLayout.prepare_laid h
  refine ⟨hlaid.pairwise, hlaid.inside, fun values view hlen hset writes => ?_⟩
  have hsl : values.length = layout.fields.length := hlen.trans (List.Forall₂.length_eq hlaid.stores).symm
  obtain ⟨hdesc, hholding⟩ := setAll_holding hlaid values rfl
    ⟨List.length_replicate, fun _ _ _ hslot => absurd hslot (Nat.not_lt_zero _)⟩ List.drop_zero hset
  rw [Nat.zero_add, hsl] at hholding
  have hrec := StructView.Record.run hlaid writes ⟨hdesc, hsl, hholding⟩
  refine ⟨fun write => ?_, hrec.get hlaid, hrec.scalar hlaid, ?_, ?_, hrec.references hlaid⟩
  · have hdoes := write.apply_does (hrec.description ▸ hlaid)
      (hrec.holding.length.trans (congrArg StructStorageLayout.size hrec.description.symm))
    rw [hrec.description] at hdoes
    cases hadm : write.admitted layout with
    | none =>
      rw [hadm] at hdoes
      rw [show write.apply _ = none from hdoes]
      rfl
    | some admitted =>
      rw [hadm] at hdoes
      obtain ⟨field, written, -, hwrt, -⟩ := hdoes
      rw [hwrt]
      rfl
  · unfold StructView.trace
    rw [hrec.description, visit_eq _ fun slot hslot => ?_, funext (hrec.get hlaid)]
    obtain ⟨value, hval, -⟩ := (hrec.references hlaid slot).1 (List.mem_reverse.1 hslot)
    rw [hrec.get hlaid, hval]
    rfl
  · rw [hlaid.references]
    exact nodup_managedSlots _

theorem struct_fields_record_pair :
    let layout : StructStorageLayout := ⟨[.scalar 0 ⟨.i8, .i32, 1, true⟩, .managed 1], [1], 14⟩
    let view : StructView := ⟨layout, [7, 1, 1, 0, 0, 0, 2, 0, 0, 0, 3, 0, 0, 0]⟩
    let final := [.set 0 (.i32 (-5)), .set 0 (.i32 300), .set 1 (.bool true)].foldl FieldWrite.step view
    final.get 0 = some (.i32 (-5)) ∧ final.trace = ([.str ⟨1, 2, 3⟩], true) := by
  intro layout view final
  have hprepare : StructStorageLayout.prepare [.builtin .i8, .builtin .string] = some layout := by
    simp [StructStorageLayout.prepare, StructStorageLayout.push, Ty.isConcrete, Ty.kids, StoredField.prepare,
      StoredField.isManaged, ScalarEncoding.new, scalarWidth, managedWidth, BuiltinType.integerLayout,
      IntegerType.fromBuiltin, IntegerType.layout, Mir.builtinRepresentation, layout]
  obtain ⟨-, hget, -, htrace, -⟩ := (struct_fields_record hprepare).2.2 [.i32 7, .str ⟨1, 2, 3⟩] view rfl rfl
    [.set 0 (.i32 (-5)), .set 0 (.i32 300), .set 1 (.bool true)]
  exact ⟨(hget 0).trans rfl, htrace.trans rfl⟩

end Runs

end Kagari.Runtime
