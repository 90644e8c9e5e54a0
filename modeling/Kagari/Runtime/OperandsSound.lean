import Kagari.Runtime.Operands

/-!
# Reads after writes

What an operand of a window holds after a write: the value that was written, and nothing else changes
(`Agree`).
-/

namespace Kagari.Runtime

variable {H : Type}

/-! ## Payloads -/

theorem decodeChar_toNat (value : Char) : decodeChar (BitVec.ofNat 64 value.toNat) = some value := by
  have hlt : value.toNat < 2 ^ 64 := Nat.lt_trans value.val.toNat_lt (by decide)
  have hbits : (BitVec.ofNat 64 value.toNat).toNat = value.toNat := by
    rw [BitVec.toNat_ofNat, Nat.mod_eq_of_lt hlt]
  have hvld : (BitVec.ofNat 64 value.toNat).toNat.isValidChar := by
    rw [hbits]
    exact value.valid
  unfold decodeChar
  rw [dif_pos hvld]
  congr 1
  refine Char.ext (UInt32.toNat_inj.mp ?_)
  exact hbits

theorem setWidth_signExtend (value : BitVec 32) : (value.signExtend 64).setWidth 32 = value := by
  refine BitVec.eq_of_getLsbD_eq fun i hi => ?_
  rw [BitVec.getLsbD_setWidth, BitVec.getLsbD_signExtend]
  simp [hi, Nat.lt_trans hi (by decide : 32 < 64)]

variable {value : Value H} {representation : ValueType}

/-- A value comes back from its payload. Generic storage has no payloads. -/
theorem decode_encode {ty : ValueType} {bits : BitVec 64} (hty : ty ≠ .generic)
    (hval : value.hasRepresentation ty = true) (hbits : value.encode = some bits) :
    decode ty bits = some value := by
  unfold Value.hasRepresentation at hval
  rw [if_neg hty] at hval
  split at hval <;> first | (cases hval; done) | skip
  all_goals cases hbits
  case h_1 => rfl
  case h_2 value => cases value <;> rfl
  case h_3 value => exact congrArg (Option.map Value.char) (decodeChar_toNat value)
  case h_4 value =>
    show some (Value.i32 ((value.signExtend 64).setWidth 32)) = _
    rw [setWidth_signExtend]
  case h_5 | h_6 | h_8 => rfl
  case h_7 value => simp [decode]

/-- Scalar storage has a scalar representation: layouts place all others in the managed bank. -/
def Location.Banked (location : Location) : Prop :=
  location.operand.managed = true ∨ location.representation ≠ .generic

namespace OperandWindow

variable {window written : OperandWindow H} {operand : OperandSlot} {location : Location}

/-- Two windows hold the same in an operand. -/
def Agree (operand : OperandSlot) (window written : OperandWindow H) : Prop :=
  if operand.managed then written.managed[operand.index]? = window.managed[operand.index]?
  else written.payloads[operand.index]? = window.payloads[operand.index]? ∧
    written.initialized[operand.index]? = window.initialized[operand.index]?

theorem Agree.refl (operand : OperandSlot) (window : OperandWindow H) : Agree operand window window := by
  unfold Agree
  split
  · rfl
  · exact ⟨rfl, rfl⟩

theorem Agree.trans {last : OperandWindow H} (h : Agree operand window written)
    (h' : Agree operand written last) : Agree operand window last := by
  unfold Agree at *
  split at h
  · rename_i hman
    rw [if_pos hman] at h' ⊢
    exact h'.trans h
  · rename_i hman
    rw [if_neg hman] at h' ⊢
    exact ⟨h'.1.trans h.1, h'.2.trans h.2⟩

theorem Agree.read (h : Agree location.operand window written) :
    written.read location = window.read location := by
  unfold Agree at h
  unfold OperandWindow.read
  split at h
  · rename_i hman
    rw [if_pos hman, if_pos hman, h]
  · rename_i hman
    rw [if_neg hman, if_neg hman, h.1, h.2]

/-! ## Writes -/

theorem write_cases (h : window.write location value = some written) :
    location.admits value = true ∧
      ((location.operand.managed = true ∧ location.operand.index < window.managed.length ∧
        written = { window with managed := window.managed.set location.operand.index value }) ∨
      (location.operand.managed = false ∧ ∃ bits, value.encode = some bits ∧
        window.writePayload location.operand.index bits = some written)) := by
  unfold OperandWindow.write at h
  split at h
  · cases h
  · rename_i hadms
    refine ⟨by simpa using hadms, ?_⟩
    split at h
    · rename_i hman
      split at h
      · rename_i hlt
        exact .inl ⟨hman, hlt, (Option.some.inj h).symm⟩
      · cases h
    · rename_i hman
      refine .inr ⟨by simpa using hman, ?_⟩
      split at h
      · cases h
      · rename_i bits hbits
        exact ⟨bits, hbits, h⟩

variable {bits : BitVec 64}

theorem writePayload_cases {slot : Nat}
    (h : window.writePayload slot bits = some written) :
    slot < window.payloads.length ∧ slot < window.initialized.length ∧
      written = { window with
        payloads := window.payloads.set slot bits
        initialized := window.initialized.set slot true } := by
  unfold OperandWindow.writePayload at h
  split at h
  · rename_i hlt
    exact ⟨hlt.1, hlt.2, (Option.some.inj h).symm⟩
  · cases h

/-- A payload that was written is read through its representation. -/
theorem read_writePayload (hman : location.operand.managed = false)
    (h : window.writePayload location.operand.index bits = some written) :
    written.read location = decode location.representation bits := by
  obtain ⟨hpay, hmark, rfl⟩ := writePayload_cases h
  unfold OperandWindow.read
  rw [if_neg (by simp [hman])]
  dsimp only
  rw [List.getElem?_set_self hmark]
  dsimp only
  rw [List.getElem?_set_self hpay]
  rfl

theorem writePayload_frame {slot : Nat}
    (h : window.writePayload slot bits = some written) (hother : operand ≠ ⟨slot, false⟩) :
    Agree operand window written := by
  obtain ⟨-, -, rfl⟩ := writePayload_cases h
  unfold Agree
  split
  · rfl
  · rename_i hman
    have hne : slot ≠ operand.index := by
      rintro rfl
      refine hother ?_
      rw [← Bool.eq_false_iff.mpr hman]
    exact ⟨List.getElem?_set_ne hne, List.getElem?_set_ne hne⟩

theorem admits_representation (h : location.admits value = true)
    (hman : location.operand.managed = false) :
    value.hasRepresentation location.representation = true := by
  unfold Location.admits at h
  split at h
  · rename_i hview
    unfold Location.admitsView at hview
    split at hview <;> simp [hman] at hview
  · split at h
    · cases h
    · rename_i hval
      simpa using hval

/-- What is written is read. -/
theorem read_write (hbanked : location.Banked)
    (h : window.write location value = some written) : written.read location = some value := by
  obtain ⟨hadms, ⟨hman, hlt, rfl⟩ | ⟨hman, bits, hbits, hwrt⟩⟩ := write_cases h
  · unfold OperandWindow.read
    rw [if_pos hman]
    exact List.getElem?_set_self hlt
  · rw [read_writePayload hman hwrt]
    refine decode_encode ?_ (admits_representation hadms hman) hbits
    exact hbanked.resolve_left (by simp [hman])

theorem operand_eq (location : Location) (hman : location.operand.managed = false) :
    location.operand = ⟨location.operand.index, false⟩ := by
  rw [← hman]

/-- No other operand changes. -/
theorem write_frame (h : window.write location value = some written)
    (hother : operand ≠ location.operand) : Agree operand window written := by
  obtain ⟨-, ⟨hman, -, rfl⟩ | ⟨hman, bits, -, hwrt⟩⟩ := write_cases h
  · unfold Agree
    split
    · rename_i hbank
      refine List.getElem?_set_ne fun hidx => hother ?_
      obtain ⟨index, managed⟩ := operand
      obtain rfl : managed = true := hbank
      obtain rfl : location.operand.index = index := hidx
      rw [← hman]
    · exact ⟨rfl, rfl⟩
  · exact writePayload_frame hwrt (operand_eq location hman ▸ hother)

/-! ## Scalars -/

theorem writeScalar_cases
    (h : window.writeScalar location representation bits = some written) :
    (location.operand.managed = true ∧ ∃ value, decode representation bits = some value ∧
        window.write location value = some written) ∨
      (location.operand.managed = false ∧ location.representation = representation ∧
        window.writePayload location.operand.index bits = some written) := by
  unfold OperandWindow.writeScalar at h
  split at h
  · rename_i hman
    exact .inl ⟨hman, Option.bind_eq_some_iff.mp h⟩
  · rename_i hman
    split at h
    · cases h
    · rename_i hadms
      have hscal : location.operand.managed = false := by simpa using hman
      refine .inr ⟨hscal, ?_, ?_⟩
      · unfold Location.admitsPayload at hadms
        by_contra hne
        rw [if_pos (Or.inr hne)] at hadms
        exact hadms rfl
      · unfold OperandSlot.scalar at h
        rwa [if_neg hman, Option.bind_some] at h

theorem read_writeScalar
    (h : window.writeScalar location representation bits = some written) :
    written.read location = decode representation bits := by
  obtain ⟨hman, value, hval, hwrt⟩ | ⟨hman, hrep, hwrt⟩ := writeScalar_cases h
  · rw [read_write (.inl hman) hwrt, hval]
  · rw [read_writePayload hman hwrt, hrep]

theorem writeScalar_frame
    (h : window.writeScalar location representation bits = some written)
    (hother : operand ≠ location.operand) : Agree operand window written := by
  obtain ⟨-, value, -, hwrt⟩ | ⟨hman, -, hwrt⟩ := writeScalar_cases h
  · exact write_frame hwrt hother
  · exact writePayload_frame hwrt (operand_eq location hman ▸ hother)

/-! ## Retained values -/

/-- The bit of a managed slot. -/
def keeps (retained : List (BitVec 64)) (index : Nat) : Bool :=
  (retained.getD (index / 64) 0).getLsbD (index % 64)

variable {retained : List (BitVec 64)}

theorem retain_cases (h : window.retain retained = some written) :
    written = { window with
      managed := window.managed.mapIdx fun index value =>
        if keeps retained index then value else .unit } := by
  unfold OperandWindow.retain at h
  split at h
  · cases h
  · exact (Option.some.inj h).symm

theorem read_retain (h : window.retain retained = some written)
    (hman : location.operand.managed = true) (hkp : keeps retained location.operand.index = false) :
    written.read location = (window.read location).map fun _ => .unit := by
  obtain rfl := retain_cases h
  unfold OperandWindow.read
  rw [if_pos hman, if_pos hman]
  dsimp only
  rw [List.getElem?_mapIdx]
  congr 1
  funext value
  rw [if_neg (by simp [hkp])]

theorem retain_frame (h : window.retain retained = some written)
    (hkp : operand.managed = true → keeps retained operand.index = true) :
    Agree operand window written := by
  obtain rfl := retain_cases h
  unfold Agree
  split
  · rename_i hman
    rw [List.getElem?_mapIdx]
    conv_rhs => rw [← Option.map_id' (x := window.managed[operand.index]?)]
    congr 1
    funext value
    rw [if_pos (hkp hman)]
  · exact ⟨rfl, rfl⟩

end OperandWindow

end Kagari.Runtime
