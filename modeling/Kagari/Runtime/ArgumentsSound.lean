import Kagari.Runtime.ExecutionValuesSound

/-!
# Arguments of a new window

An argument that is admitted can be written, is then read as what it was given as, and changes no
other operand of the window.
-/

namespace Kagari.Runtime

open Lib Live List Option

variable {H : Type}

/-- What the caller gives: a value, or what the source window holds. -/
def ArgumentSource.given (source : Option (OperandWindow H)) : ArgumentSource H → Option (Value H)
  | .value held => some held
  | .window location => source.bind fun source => source.read location

/-- The width of the bank of an operand. -/
def OperandSlot.capacity (operand : OperandSlot) (scalarCount managedCount : Nat) : Nat :=
  if operand.managed then managedCount else scalarCount

variable {location : Location}

namespace OperandWindow

/-- The check of one argument, against the banks of its source. -/
def admitsArgument (slotLayout : Option FrameLayout) (source : Option (OperandWindow H))
    (target : Location) : ArgumentSource H → Bool
  | .value value => slotLayout.isNone || target.admits value
  | .window location =>
    source.any fun source =>
      match location.operand.scalar.bind source.payload, target.operand.managed with
      | some bits, false => target.admitsPayload location.representation bits
      | _, _ => (source.read location).any fun value => target.admits value

/-- The check of all arguments. -/
def admitsAll (slotLayout : Option FrameLayout) (scalarCount managedCount : Nat)
    (source : Option (OperandWindow H)) (arguments : List (Nat × ArgumentSource H)) : Bool :=
  arguments.all fun argument => (destination slotLayout argument.1).any fun target =>
    decide (target.operand.index < target.operand.capacity scalarCount managedCount) &&
      admitsArgument slotLayout source target argument.2

variable {window written : OperandWindow H} {target : Location} {slotLayout : Option FrameLayout}
  {source : Option (OperandWindow H)} {argument : ArgumentSource H}

/-! ## One argument -/

theorem scalar_some {operand : OperandSlot} {slot : Nat} (h : operand.scalar = some slot) :
    operand = ⟨slot, false⟩ := by
  unfold OperandSlot.scalar at h
  split at h
  · cases h
  · rename_i hman
    cases h
    rw [← Bool.eq_false_iff.mpr hman]

/-- A payload goes from bank to bank, or a value is read and written. -/
theorem transfer_cases
    (h : window.transfer source target (.window location) = some written) :
    ∃ from', source = some from' ∧
      ((∃ slot bits, location.operand.scalar = some slot ∧ from'.payload slot = some bits ∧
          target.operand.managed = false ∧
          window.writePayload target.operand.index bits = some written) ∨
        ((location.operand.scalar.bind from'.payload = none ∨ target.operand.managed = true) ∧
          ∃ value, from'.read location = some value ∧ window.write target value = some written)) := by
  obtain ⟨from', hsrc, h⟩ := bind_eq_some_iff.mp h
  refine ⟨from', hsrc, ?_⟩
  split at h
  · rename_i bits slot hbits hslot
    obtain ⟨sourceSlot, hscal, hpay⟩ := bind_eq_some_iff.mp hbits
    have htgt := scalar_some hslot
    refine .inl ⟨sourceSlot, bits, hscal, hpay, by rw [htgt], ?_⟩
    rw [htgt]
    exact h
  · rename_i hnot
    refine .inr ⟨?_, bind_eq_some_iff.mp h⟩
    by_contra hboth
    obtain ⟨hpay, hman⟩ := not_or.mp hboth
    obtain ⟨bits, hbits⟩ := ne_none_iff_exists'.mp hpay
    refine hnot bits target.operand.index hbits ?_
    unfold OperandSlot.scalar
    rw [if_neg hman]

theorem read_payload {slot : Nat} {bits : BitVec 64}
    (hslot : location.operand.scalar = some slot) (hpay : window.payload slot = some bits) :
    window.read location = decode location.representation bits := by
  have hopnd := scalar_some hslot
  unfold OperandWindow.payload at hpay
  split at hpay
  · rename_i hmark
    unfold OperandWindow.read
    rw [if_neg (by simp [hopnd]), hopnd]
    dsimp only
    rw [hmark]
    dsimp only
    rw [hpay, bind_some]
  · cases hpay

/-- An argument is read as it was given. -/
theorem read_transfer (hbank : target.Banked)
    (hadms : admitsArgument slotLayout source target argument = true)
    (h : window.transfer source target argument = some written) :
    written.read target = argument.given source := by
  cases argument with
  | value value => exact read_write hbank h
  | window location =>
    obtain ⟨from', rfl, ⟨slot, bits, hslot, hpay, hman, hwrt⟩ | ⟨-, value, hread, hwrt⟩⟩ :=
      transfer_cases h
    · -- the payload is read back through the same representation
      have hrep : target.representation = location.representation := by
        unfold admitsArgument at hadms
        dsimp only [Option.any] at hadms
        rw [hslot, bind_some, hpay, hman] at hadms
        dsimp only at hadms
        unfold Location.admitsPayload at hadms
        by_contra hne
        rw [if_pos (Or.inr hne)] at hadms
        cases hadms
      show written.read target = from'.read location
      rw [read_writePayload hman hwrt, hrep, read_payload hslot hpay]
    · show written.read target = from'.read location
      rw [read_write hbank hwrt, hread]

theorem transfer_frame {operand : OperandSlot}
    (h : window.transfer source target argument = some written) (hother : operand ≠ target.operand) :
    Agree operand window written := by
  cases argument with
  | value value => exact write_frame h hother
  | window location =>
    obtain ⟨from', rfl, ⟨slot, bits, -, -, hman, hwrt⟩ | ⟨-, value, -, hwrt⟩⟩ := transfer_cases h
    · exact writePayload_frame hwrt (operand_eq target hman ▸ hother)
    · exact write_frame hwrt hother

/-- The marks of a window are as many as its payloads. -/
def Marked (window : OperandWindow H) : Prop := window.initialized.length = window.payloads.length

theorem writePayload_isSome {slot : Nat} (hmrk : window.Marked) (hslot : slot < window.payloads.length)
    (bits : BitVec 64) : ∃ written, window.writePayload slot bits = some written := by
  unfold OperandWindow.writePayload
  rw [if_pos ⟨hslot, hmrk ▸ hslot⟩]
  exact ⟨_, rfl⟩

theorem write_isSome {value : Value H} (hmrk : window.Marked) (hadms : target.admits value = true)
    (hidx : target.operand.index <
      target.operand.capacity window.payloads.length window.managed.length) :
    ∃ written, window.write target value = some written := by
  unfold OperandWindow.write
  unfold OperandSlot.capacity at hidx
  rw [if_neg (by simp [hadms])]
  by_cases hman : target.operand.managed = true
  · rw [if_pos hman] at hidx ⊢
    rw [if_pos hidx]
    exact ⟨_, rfl⟩
  · rw [if_neg hman] at hidx ⊢
    have henc : value.encode.isSome := by
      unfold Location.admits at hadms
      split at hadms
      · rename_i hview
        unfold Location.admitsView at hview
        split at hview <;> simp [hman] at hview
      · split at hadms
        · cases hadms
        · cases hbits : value.encode with
          | none =>
            rw [hbits] at hadms
            cases hadms
          | some bits => rfl
    obtain ⟨bits, hbits⟩ := isSome_iff_exists.mp henc
    rw [hbits]
    exact writePayload_isSome hmrk hidx bits

/-- An admitted argument is written. Without a layout values are not checked before. -/
theorem transfer_isSome (hmrk : window.Marked)
    (hadms : admitsArgument slotLayout source target argument = true)
    (hval : ∀ value, slotLayout = none → argument = .value value → target.admits value = true)
    (hidx : target.operand.index <
      target.operand.capacity window.payloads.length window.managed.length) :
    ∃ written, window.transfer source target argument = some written := by
  cases argument with
  | value value =>
    refine write_isSome hmrk ?_ hidx
    cases slotLayout with
    | none => exact hval value rfl rfl
    | some layout => exact hadms
  | window location =>
    cases source with
    | none => cases hadms
    | some from' =>
      have hread : (from'.read location).any (fun value => target.admits value) = true →
          ∃ written, (from'.read location).bind (window.write target) = some written := by
        intro hany
        cases hval : from'.read location with
        | none => simp [hval] at hany
        | some value => exact write_isSome hmrk (by simpa [hval] using hany) hidx
      unfold admitsArgument at hadms
      dsimp only at hadms
      rw [any_some] at hadms
      unfold OperandWindow.transfer
      dsimp only
      rw [bind_some]
      cases hbits : location.operand.scalar.bind from'.payload with
      | none =>
        rw [hbits] at hadms
        exact hread hadms
      | some bits =>
        rw [hbits] at hadms
        unfold OperandSlot.scalar
        unfold OperandSlot.capacity at hidx
        by_cases hman : target.operand.managed = true
        · rw [hman] at hadms
          rw [if_pos hman]
          exact hread hadms
        · rw [if_neg hman] at hidx ⊢
          exact writePayload_isSome hmrk hidx bits

/-! ## All arguments -/

variable {arguments front back : List (Nat × ArgumentSource H)} {operand : OperandSlot} {slot : Nat}

/-- No argument goes to the operand. -/
def Untouched (slotLayout : Option FrameLayout) (operand : OperandSlot)
    (arguments : List (Nat × ArgumentSource H)) : Prop :=
  ∀ argument ∈ arguments, ∀ target, destination slotLayout argument.1 = some target →
    operand ≠ target.operand

theorem transferAll_cons (h : transferAll slotLayout source ((slot, argument) :: back) window = some written) :
    ∃ target next, destination slotLayout slot = some target ∧
      window.transfer source target argument = some next ∧
      transferAll slotLayout source back next = some written := by
  unfold transferAll at h
  obtain ⟨target, htgt, h⟩ := bind_eq_some_iff.mp h
  obtain ⟨next, hnext, h⟩ := bind_eq_some_iff.mp h
  exact ⟨target, next, htgt, hnext, h⟩

theorem transferAll_frame (h : transferAll slotLayout source arguments window = some written)
    (hother : Untouched slotLayout operand arguments) : Agree operand window written := by
  induction arguments generalizing window with
  | nil =>
    obtain rfl := some.inj h
    exact .refl operand window
  | cons argument rest ih =>
    obtain ⟨target, next, htgt, hnext, hrest⟩ := transferAll_cons h
    have hagree := transfer_frame hnext (hother argument mem_cons_self target htgt)
    exact hagree.trans (ih hrest fun other hmem => hother other (mem_cons_of_mem _ hmem))

/-- The last argument of an operand stays. -/
theorem read_transferAll (hbank : target.Banked)
    (htgt : destination slotLayout slot = some target)
    (hadms : admitsArgument slotLayout source target argument = true)
    (hother : Untouched slotLayout target.operand back)
    (h : transferAll slotLayout source (front ++ (slot, argument) :: back) window = some written) :
    written.read target = argument.given source := by
  induction front generalizing window with
  | nil =>
    obtain ⟨target', next, htgt', hnext, hrest⟩ := transferAll_cons h
    obtain rfl : target = target' := some.inj (htgt.symm.trans htgt')
    rw [(transferAll_frame hrest hother).read, read_transfer hbank hadms hnext]
  | cons first front ih =>
    obtain ⟨-, next, -, -, hrest⟩ := transferAll_cons h
    exact ih hrest

theorem transferAll_isSome (window : OperandWindow H) {scalarCount managedCount : Nat} (hmrk : window.Marked)
    (hscals : window.payloads.length = scalarCount) (hman : window.managed.length = managedCount)
    (hval : slotLayout = none → ∀ value, .value value ∈ arguments.map Prod.snd →
      value.isEphemeral = false)
    (hadms : admitsAll slotLayout scalarCount managedCount source arguments = true) :
    ∃ written, transferAll slotLayout source arguments window = some written := by
  induction arguments generalizing window with
  | nil => exact ⟨window, rfl⟩
  | cons argument rest ih =>
    obtain ⟨slot, argument⟩ := argument
    unfold admitsAll at hadms
    rw [all_cons, Bool.and_eq_true] at hadms
    obtain ⟨hfst, hrest⟩ := hadms
    obtain ⟨target, htgt, hfst⟩ := (any_eq_true _ _).mp hfst
    obtain ⟨hidx, hadmit⟩ := (Bool.and_eq_true _ _).mp hfst
    obtain ⟨next, hnext⟩ := transfer_isSome hmrk hadmit (fun value hnone harg => by
        -- without a layout the slot is generic
        subst hnone
        cases htgt
        have hval := hval rfl value (mem_map.mpr ⟨_, mem_cons_self, harg⟩)
        simp [Location.admits, genericLocation, Value.hasRepresentation, hval, OperandSlot.new])
      (by rw [hscals, hman]; exact of_decide_eq_true hidx)
    have hwids := ExecutionValues.transfer_widths hnext
    obtain ⟨written, hwrtn⟩ := ih next
      (by unfold Marked; rw [hwids.initialized, hwids.payloads]; exact hmrk)
      (hwids.payloads.trans hscals) (hwids.managed.trans hman)
      (fun hnone value hmem => hval hnone value (mem_cons_of_mem _ hmem)) hrest
    refine ⟨written, ?_⟩
    unfold transferAll
    dsimp only [bind_eq_bind]
    rw [htgt, bind_some, hnext, bind_some, hwrtn]

end OperandWindow

/-! ## Admission in the storage -/

namespace ExecutionValues

variable {state : ExecutionValues H} {lives : List (Live H)} {slotLayout : Option FrameLayout}
  {source : Option WindowRanges} {operands : Option (OperandWindow H)}

theorem Banks.admitsArgument (h : Banks state lives) (hsrc : SourceOf lives source operands)
    (target : Location) (argument : ArgumentSource H)
    (hwin : ∀ location, argument = .window location → source.isSome) :
    state.admitsArgument slotLayout source target argument =
      some (OperandWindow.admitsArgument slotLayout operands target argument) := by
  cases argument with
  | value value => rfl
  | window location =>
    rcases hsrc with ⟨rfl, rfl⟩ | ⟨before, found, after, rfl, rfl, rfl⟩
    · cases hwin location rfl
    · unfold ExecutionValues.admitsArgument OperandWindow.admitsArgument
      dsimp only
      rw [map_some, any_some]
      unfold ExecutionValues.admitsTransfer
      have hpay : state.payload (rangesOf before found) = found.operands.payload :=
        funext h.payload
      exact congrArg₂ (fun (payload : Nat → Option (BitVec 64)) (read : Option (Value H)) =>
        some (match location.operand.scalar.bind payload, target.operand.managed with
          | some bits, false => target.admitsPayload location.representation bits
          | _, _ => read.any fun value => target.admits value)) hpay (h.readRange location)

/-- The loop answers, as the check of all arguments does. -/
theorem Banks.admitsArguments (h : Banks state lives) (hsrc : SourceOf lives source operands)
    {scalarCount managedCount : Nat} {arguments : List (Nat × ArgumentSource H)}
    (hwin : ∀ location, .window location ∈ arguments.map Prod.snd → source.isSome)
    (htgts : ∀ argument ∈ arguments, (destination slotLayout argument.1).isSome) :
    state.admitsArguments slotLayout scalarCount managedCount source arguments =
      some (OperandWindow.admitsAll slotLayout scalarCount managedCount operands arguments) := by
  induction arguments with
  | nil => rfl
  | cons argument rest ih =>
    obtain ⟨slot, argument⟩ := argument
    have hrest := ih (fun location hmem => hwin location (mem_cons_of_mem _ hmem))
      (fun other hmem => htgts other (mem_cons_of_mem _ hmem))
    obtain ⟨target, htgt⟩ := isSome_iff_exists.mp (htgts _ mem_cons_self)
    unfold ExecutionValues.admitsArguments OperandWindow.admitsAll
    dsimp only [bind_eq_bind]
    rw [htgt, bind_some, h.admitsArgument hsrc target argument (fun location heq =>
      hwin location (by simp [heq])), bind_some, all_cons, hrest]
    dsimp only
    rw [htgt, any_some]
    show (if target.operand.capacity scalarCount managedCount ≤ target.operand.index ∨ _ then some false
      else some (OperandWindow.admitsAll slotLayout scalarCount managedCount operands rest)) =
      some (_ && OperandWindow.admitsAll slotLayout scalarCount managedCount operands rest)
    by_cases hlt : target.operand.index < target.operand.capacity scalarCount managedCount
    · rw [decide_eq_true hlt, Bool.true_and]
      cases OperandWindow.admitsArgument slotLayout operands target argument with
      | false => exact if_pos (.inr rfl)
      | true => exact if_neg (by simp [hlt])
    · rw [decide_eq_false hlt]
      exact if_pos (.inl (Nat.le_of_not_lt hlt))

end ExecutionValues

end Kagari.Runtime
