import Kagari.Runtime.ArgumentsSound

/-!
# Runs of execution windows

`Isolated` is what the storage is for: every identity has banks of its own. An operation on one
identity cannot touch another's, by construction. Any run of the storage shows through `view` what the
same run of `Isolated` holds.
-/

namespace Kagari.Runtime

open Lib Live ExecutionValues Function List

variable {H : Type}

/-! ## Windows of their own -/

abbrev Isolated (H : Type) := FrameSlots → Option (OperandWindow H)

/-- The arguments of `allocate`. -/
structure Allocation (H : Type) where
  count : Nat
  parameterSlots : List Nat
  arguments : FrameArguments H
  slotLayout : Option FrameLayout

namespace Allocation

variable (allocation : Allocation H) (windows : Isolated H)

def transfers : List (Nat × ArgumentSource H) :=
  allocation.parameterSlots.zip allocation.arguments.sources

def source : Option (OperandWindow H) := allocation.arguments.window.bind windows

/-- A new window: units and unwritten scalars, then the arguments, read from the window they come
from. -/
def initial : Option (OperandWindow H) :=
  (bankCounts allocation.count allocation.slotLayout).bind fun counts =>
    if OperandWindow.admitsAll allocation.slotLayout counts.1 counts.2 (allocation.source windows)
        allocation.transfers then
      OperandWindow.transferAll allocation.slotLayout (allocation.source windows) allocation.transfers
        (.blank counts.1 counts.2)
    else none

/-- A value that a window without a layout is given, though no slot can hold it. -/
def Unholdable : Prop :=
  allocation.slotLayout = none ∧
    ∃ value, .value value ∈ allocation.arguments.sources ∧ value.isEphemeral = true

end Allocation

/-- An operation that succeeded, with the identity it was made through. -/
inductive WindowEvent (H : Type) where
  | allocated (slots : FrameSlots) (allocation : Allocation H)
  | written (slots : FrameSlots) (location : Location) (value : Value H)
  | writtenScalar (slots : FrameSlots) (location : Location) (representation : ValueType)
      (bits : BitVec 64)
  | retained (slots : FrameSlots) (words : List (BitVec 64))
  | released (slots : FrameSlots)

def Isolated.apply (windows : Isolated H) : WindowEvent H → Isolated H
  | .allocated slots allocation => update windows slots (allocation.initial windows)
  | .written slots location value =>
    update windows slots ((windows slots).bind fun window => window.write location value)
  | .writtenScalar slots location representation bits =>
    update windows slots
      ((windows slots).bind fun window => window.writeScalar location representation bits)
  | .retained slots words =>
    update windows slots ((windows slots).bind fun window => window.retain words)
  | .released slots => update windows slots none

/-- An event that may change what an operand of an identity holds. -/
def WindowEvent.Touches (slots : FrameSlots) (operand : OperandSlot) : WindowEvent H → Prop
  | .allocated other _ | .released other => other = slots
  | .written other location _ | .writtenScalar other location _ _ =>
    other = slots ∧ location.operand = operand
  | .retained other words =>
    other = slots ∧ operand.managed = true ∧ OperandWindow.keeps words operand.index = false

/-- What each identity holds after the events. -/
def Isolated.after (events : List (WindowEvent H)) : Isolated H :=
  events.foldl Isolated.apply fun _ => none

/-! ## Runs of the storage -/

inductive WindowCall (H : Type) where
  | allocate (memory : Nat → Bool) (allocation : Allocation H)
  | set (slots : FrameSlots) (location : Location) (value : Value H)
  | setScalar (slots : FrameSlots) (location : Location) (representation : ValueType)
      (bits : BitVec 64)
  | retain (slots : FrameSlots) (words : List (BitVec 64))
  | release (slots : FrameSlots)

variable {location : Location} {operand : OperandSlot}

namespace ExecutionValues

/-- A call that fails changes nothing and is no event. -/
def done (state : ExecutionValues H) (result : Option (ExecutionValues H)) (event : WindowEvent H) :
    ExecutionValues H × List (WindowEvent H) :=
  match result with
  | some state' => (state', [event])
  | none => (state, [])

def step (state : ExecutionValues H) :
    WindowCall H → Option (ExecutionValues H × List (WindowEvent H))
  | .allocate memory allocation =>
    (state.allocate memory allocation.count allocation.parameterSlots allocation.arguments
      allocation.slotLayout).map fun
    | (.ok slots, state') => (state', [.allocated slots allocation])
    | (.error _, state') => (state', [])
  | .set slots location value =>
    some (state.done (state.setLocation slots location value) (.written slots location value))
  | .setScalar slots location representation bits =>
    some (state.done (state.setScalarLocation slots location representation bits)
      (.writtenScalar slots location representation bits))
  | .retain slots words => some (state.done (state.retainManaged slots words) (.retained slots words))
  | .release slots => (state.release slots).map fun result => state.done result (.released slots)

/-- Calls one after another, with what happened; `none` if one panics. -/
def run : List (WindowCall H) → ExecutionValues H → Option (ExecutionValues H × List (WindowEvent H))
  | [], state => some (state, [])
  | call :: calls, state => do
    let (next, events) ← state.step call
    let (last, others) ← run calls next
    some (last, events ++ others)

variable {state state' : ExecutionValues H} {lives : List (Live H)}

/-! ## The operations -/

variable {arguments : FrameArguments H} {allocation : Allocation H}
  {f : OperandWindow H → Option (OperandWindow H)} {event : WindowEvent H}

/-- What the source of the arguments is. -/
theorem Rep.sourceRanges (h : Rep state lives)
    {source : Option WindowRanges} (hsrc : state.sourceRanges arguments = .ok source) :
    SourceOf lives source (arguments.window.bind state.view) ∧
      (arguments.window.isSome → source.isSome) := by
  unfold ExecutionValues.sourceRanges at hsrc
  cases hwin : arguments.window with
  | none =>
    rw [hwin] at hsrc
    cases hsrc
    exact ⟨.inl ⟨rfl, rfl⟩, fun hsome => hsome⟩
  | some slots =>
    rw [hwin] at hsrc
    dsimp only at hsrc
    cases hrngs : state.ranges slots with
    | none =>
      rw [hrngs] at hsrc
      cases hsrc
    | some ranges =>
      rw [hrngs] at hsrc
      cases hsrc
      obtain ⟨window, hfnd, -⟩ := Option.map_eq_some_iff.mp hrngs
      obtain ⟨left, live, right, rfl, rfl⟩ := h.of_window hfnd
      refine ⟨.inr ⟨left, live, right, rfl, ?_, ?_⟩, fun _ => rfl⟩
      · exact hrngs.symm.trans h.ranges
      · rw [Option.bind_some, h.view]

theorem mem_sources
    (h : .window location ∈ arguments.sources) : arguments.window.isSome := by
  unfold FrameArguments.sources at h
  unfold FrameArguments.window
  cases hexpl : arguments.explicit with
  | values values => simp [hexpl] at h
  | window slots locations => rfl

theorem destination_isSome {counts : Nat × Nat} {slot : Nat}
    (hcnts : bankCounts allocation.count allocation.slotLayout = some counts)
    (hslot : slot < allocation.count) : (destination allocation.slotLayout slot).isSome := by
  unfold bankCounts at hcnts
  unfold destination
  cases hlay : allocation.slotLayout with
  | none => rfl
  | some layout =>
    rw [hlay] at hcnts
    dsimp only at hcnts ⊢
    split at hcnts
    · rename_i hlen
      rw [getElem?_eq_getElem (hlen.symm ▸ hslot)]
      rfl
    · cases hcnts

/-- The ends of `allocate`: a panic while a value that no slot can hold is written, a refusal, a new
window. -/
theorem Rep.allocate (h : Rep state lives) (memory : Nat → Bool) (allocation : Allocation H) :
    let result := state.allocate memory allocation.count allocation.parameterSlots allocation.arguments
      allocation.slotLayout
    (result = none ∧ allocation.Unholdable) ∨ (∃ error, result = some (.error error, state)) ∨
      ∃ initial state' index, allocation.initial state.view = some initial ∧
        result = some (.ok ⟨state.owner, index, state.nextGeneration + 1⟩, state') ∧
        Rep state' (lives ++ [⟨index, state.nextGeneration + 1, allocation.slotLayout, initial⟩]) ∧
        state'.owner = state.owner ∧ state'.nextGeneration = state.nextGeneration + 1 := by
  intro result
  unfold result ExecutionValues.allocate
  split
  · exact .inr (.inl ⟨_, rfl⟩)
  · rename_i hfit
    cases hcnts : bankCounts allocation.count allocation.slotLayout with
    | none => exact .inr (.inl ⟨_, rfl⟩)
    | some counts =>
      obtain ⟨scalarCount, managedCount⟩ := counts
      dsimp only
      cases hsrc : state.sourceRanges allocation.arguments with
      | error error => exact .inr (.inl ⟨_, rfl⟩)
      | ok source =>
        obtain ⟨hof, hsome⟩ := h.sourceRanges hsrc
        change SourceOf lives source (allocation.source state.view) at hof
        have hsrcs : ∀ argument, argument ∈ allocation.transfers.map Prod.snd →
            argument ∈ allocation.arguments.sources := by
          intro argument hmem
          obtain ⟨pair, hpair, rfl⟩ := mem_map.mp hmem
          exact (of_mem_zip hpair).2
        have hadms := @Banks.admitsArguments H state lives allocation.slotLayout source _
          h.toBanks hof scalarCount managedCount allocation.transfers
          (fun location hmem => hsome (mem_sources (hsrcs _ hmem)))
          (fun argument hmem => destination_isSome hcnts (by
            have hsl := (not_or.mp hfit).2
            rw [any_eq_true] at hsl
            by_contra hle
            refine hsl ⟨argument.1, (of_mem_zip hmem).1, ?_⟩
            exact decide_eq_true (Nat.le_of_not_lt hle)))
        dsimp only [Option.bind_eq_bind]
        have htr : allocation.parameterSlots.zip allocation.arguments.sources =
            allocation.transfers := rfl
        rw [htr, hadms, Option.bind_some]
        split
        · exact .inr (.inl ⟨_, rfl⟩)
        · rename_i hadm
          have hall : OperandWindow.admitsAll allocation.slotLayout scalarCount managedCount
              (allocation.source state.view) allocation.transfers = true := by simpa using hadm
          split
          · exact .inr (.inl ⟨_, rfl⟩)
          · cases hrsv : state.reserveAll memory scalarCount managedCount with
            | error error => exact .inr (.inl ⟨_, rfl⟩)
            | ok =>
              dsimp only
              rcases h.publish (reserveAll_slot hrsv) hof allocation.transfers with
                ⟨hnone, hpub⟩ | ⟨initial, state', index, hinit, hpub, hrep, hown, hgen⟩
              · refine .inl ⟨?_, ?_⟩
                · rw [hpub]
                  rfl
                · by_contra hholdable
                  obtain ⟨written, hwrtn⟩ := OperandWindow.transferAll_isSome
                    (.blank scalarCount managedCount)
                    (by simp [OperandWindow.Marked, OperandWindow.blank])
                    (by simp [OperandWindow.blank]) (by simp [OperandWindow.blank])
                    (fun hlay value hmem => by
                      by_contra hephemeral
                      exact hholdable ⟨hlay, value, hsrcs _ hmem, by simpa using hephemeral⟩) hall
                  cases hwrtn.symm.trans hnone
              · refine .inr (.inr ⟨initial, state', index, ?_, ?_, hrep, hown, hgen⟩)
                · unfold Allocation.initial
                  rw [hcnts, Option.bind_some, if_pos hall]
                  exact hinit
                · rw [hpub]
                  rfl

variable {slots : FrameSlots}

theorem Rep.view_none (h : Rep state lives) :
    state.view slots = none ↔ state.window slots = none := by
  constructor
  · intro hview
    cases hwin : state.window slots with
    | none => rfl
    | some window =>
      obtain ⟨left, live, right, rfl, rfl⟩ := h.of_window hwin
      rw [h.view] at hview
      cases hview
  · intro hwin
    unfold ExecutionValues.view ExecutionValues.ranges
    rw [hwin]
    rfl

/-- An identity that was given out and names no window. -/
def Gone (state : ExecutionValues H) (slots : FrameSlots) : Prop :=
  slots.generation ≤ state.nextGeneration ∧ state.view slots = none

/-- What steps leave, and how the windows look then. -/
structure Stepped (state state' : ExecutionValues H) (events : List (WindowEvent H)) : Prop where
  rep : ∃ lives, Rep state' lives
  owner : state'.owner = state.owner
  view : state'.view = events.foldl Isolated.apply state.view
  generation : state.nextGeneration ≤ state'.nextGeneration
  allocated : ∀ slots allocation, .allocated slots allocation ∈ events →
    state.nextGeneration < slots.generation
  released : ∀ slots, .released slots ∈ events → state'.Gone slots

theorem Rep.unchanged (h : Rep state lives) : Stepped state state [] :=
  ⟨⟨lives, h⟩, rfl, rfl, Nat.le_refl _, fun _ _ hmem => (nomatch hmem), fun _ hmem => (nomatch hmem)⟩

theorem owner_through
    (h : state.through slots f = some state') : state'.owner = state.owner := by
  obtain ⟨ranges, -, h⟩ := Option.bind_eq_some_iff.mp h
  obtain ⟨operands, -, h⟩ := Option.bind_eq_some_iff.mp h
  obtain ⟨written, -, rfl⟩ := Option.map_eq_some_iff.mp h
  rfl

/-- A change through one identity is the event of that change. -/
theorem Rep.through_stepped (h : Rep state lives)
    (hf : ∀ window written, f window = some written → SameWidths window written)
    (happly : ∀ windows : Isolated H, windows.apply event =
      update windows slots ((windows slots).bind f))
    (hallocated : ∀ slots allocation, event ≠ .allocated slots allocation)
    (hreleased : ∀ slots, event ≠ .released slots) :
    let result := state.done (state.through slots f) event
    Stepped state result.1 result.2 := by
  intro result
  unfold result done
  cases hthru : state.through slots f with
  | none => exact h.unchanged
  | some state' =>
    obtain ⟨lives', written, hrep, hview, hviews, hgen⟩ := h.through_some hf hthru
    refine ⟨⟨lives', hrep⟩, owner_through hthru, ?_, Nat.le_of_eq hgen.symm,
      fun slots allocation hmem => ?_, fun slots hmem => ?_⟩
    · show state'.view = Isolated.apply state.view event
      rw [happly]
      funext other
      rw [hviews, update_apply, hview]
    · exact absurd (mem_singleton.mp hmem).symm (hallocated slots allocation)
    · exact absurd (mem_singleton.mp hmem).symm (hreleased slots)

theorem Rep.release_stepped (h : Rep state lives) (slots : FrameSlots) :
    ∃ result, state.release slots = some result ∧
      Stepped state (state.done result (.released slots)).1 (state.done result (.released slots)).2 := by
  cases hwin : state.window slots with
  | none =>
    refine ⟨none, ?_, h.unchanged⟩
    unfold ExecutionValues.release ExecutionValues.ranges
    rw [hwin]
    rfl
  | some window =>
    obtain ⟨left, live, right, rfl, rfl⟩ := h.of_window hwin
    obtain ⟨state', hrls, hrep, hown, hgen⟩ := h.release
    have hview : state'.view = update state.view (state.nameOf live) none := by
      funext other
      rw [update_apply, hrep.view_eq, h.view_eq, hown]
      split
      · rename_i heq
        -- no other window has its index
        unfold lookup
        rw [find?_eq_none.mpr fun found hfnd => ?_]
        · rfl
        · intro hname
          rw [heq] at hname
          have hidx : live.index = found.index :=
            congrArg FrameSlots.index (of_decide_eq_true hname)
          have hnd := h.nodup
          rw [map_append, map_cons] at hnd
          refine (nodup_middle.mp hnd |> nodup_cons.mp).1 ?_
          rw [hidx, ← map_append]
          exact mem_map_of_mem hfnd
      · rename_i hne
        exact (lookup_split hne).symm
    refine ⟨some state', hrls, ⟨⟨_, hrep⟩, hown, hview, Nat.le_of_eq hgen.symm,
      fun slots allocation hmem => (nomatch mem_singleton.mp hmem), fun slots hmem => ?_⟩⟩
    obtain rfl : slots = state.nameOf live := by simpa using mem_singleton.mp hmem
    constructor
    · show live.generation ≤ state'.nextGeneration
      rw [hgen]
      exact h.generations live (mem_append_right _ mem_cons_self)
    · show state'.view _ = none
      rw [hview, update_self]

variable {events : List (WindowEvent H)}

theorem Rep.allocate_stepped (h : Rep state lives) {memory : Nat → Bool}
    (hstep : state.step (.allocate memory allocation) = some (state', events)) :
    Stepped state state' events := by
  unfold step at hstep
  dsimp only at hstep
  rcases h.allocate memory allocation with ⟨hnone, -⟩ | ⟨error, herr⟩ |
    ⟨initial, state'', index, hinit, hok, hrep, hown, hgen⟩
  · rw [hnone] at hstep
    cases hstep
  · rw [herr] at hstep
    obtain ⟨rfl, rfl⟩ := Prod.mk.inj (Option.some.inj hstep)
    exact h.unchanged
  · rw [hok] at hstep
    obtain ⟨rfl, rfl⟩ := Prod.mk.inj (Option.some.inj hstep)
    refine ⟨⟨_, hrep⟩, hown, ?_, ?_, fun slots other hmem => ?_, fun slots hmem => ?_⟩
    · show state''.view = update state.view _ (allocation.initial state.view)
      funext slots
      rw [update_apply, hinit, hrep.view_eq, hown]
      split
      · rename_i heq
        have hview := hrep.view
        rw [hrep.view_eq] at hview
        rw [heq, ← hown]
        exact hview
      · rename_i hne
        rw [lookup_split hne, append_nil, h.view_eq]
    · rw [hgen]
      exact Nat.le_succ _
    · obtain ⟨rfl, -⟩ : slots = _ ∧ other = allocation := by simpa using mem_singleton.mp hmem
      exact Nat.lt_succ_self _
    · exact nomatch mem_singleton.mp hmem

theorem Rep.step (h : Rep state lives) {call : WindowCall H}
    (hstep : state.step call = some (state', events)) : Stepped state state' events := by
  cases call with
  | allocate memory allocation => exact h.allocate_stepped hstep
  | set slots location value =>
    unfold ExecutionValues.step at hstep
    dsimp only at hstep
    rw [setLocation_eq] at hstep
    obtain ⟨rfl, rfl⟩ := Prod.mk.inj (Option.some.inj hstep)
    exact h.through_stepped (fun _ _ => write_widths) (fun _ => rfl) (fun _ _ heq => nomatch heq)
      (fun _ heq => nomatch heq)
  | setScalar slots location representation bits =>
    unfold ExecutionValues.step at hstep
    dsimp only at hstep
    rw [h.setScalarLocation_eq] at hstep
    obtain ⟨rfl, rfl⟩ := Prod.mk.inj (Option.some.inj hstep)
    exact h.through_stepped (fun _ _ => writeScalar_widths) (fun _ => rfl) (fun _ _ heq => nomatch heq)
      (fun _ heq => nomatch heq)
  | retain slots words =>
    unfold ExecutionValues.step at hstep
    dsimp only at hstep
    rw [retainManaged_eq] at hstep
    obtain ⟨rfl, rfl⟩ := Prod.mk.inj (Option.some.inj hstep)
    exact h.through_stepped (fun _ _ => retain_widths) (fun _ => rfl) (fun _ _ heq => nomatch heq)
      (fun _ heq => nomatch heq)
  | release slots =>
    unfold ExecutionValues.step at hstep
    dsimp only at hstep
    obtain ⟨result, hrls, hstepd⟩ := h.release_stepped slots
    rw [hrls] at hstep
    obtain ⟨rfl, rfl⟩ := Prod.mk.inj (Option.some.inj hstep)
    exact hstepd

/-! ## Whole runs -/

/-- Only `allocate` gives an identity a window. -/
theorem after_none : ∀ {events : List (WindowEvent H)} {windows : Isolated H},
    (∀ allocation, .allocated slots allocation ∉ events) → windows slots = none →
    events.foldl Isolated.apply windows slots = none := by
  intro events
  induction events with
  | nil => exact fun _ hnone => hnone
  | cons event events ih =>
    intro windows hallocated hnone
    refine ih (fun allocation hmem => hallocated allocation (mem_cons_of_mem _ hmem)) ?_
    cases event with
    | allocated other allocation =>
      have hne : slots ≠ other := fun heq => hallocated allocation (heq ▸ mem_cons_self)
      exact (update_of_ne hne _ _).trans hnone
    | released other =>
      show update windows other none slots = none
      rw [update_apply]
      split
      · rfl
      · exact hnone
    | written other location value | writtenScalar other location representation bits
    | retained other words =>
      show update windows other _ slots = none
      rw [update_apply]
      split
      · rename_i heq
        rw [← heq, hnone]
        rfl
      · exact hnone

theorem Stepped.gone (h : Stepped state state' events)
    (hgone : state.Gone slots) : state'.Gone slots := by
  refine ⟨Nat.le_trans hgone.1 h.generation, ?_⟩
  rw [h.view]
  refine after_none (fun allocation hmem => ?_) hgone.2
  exact absurd (h.allocated slots allocation hmem) (Nat.not_lt.mpr hgone.1)

theorem Stepped.trans {last : ExecutionValues H} {events later : List (WindowEvent H)}
    (h : Stepped state state' events) (h' : Stepped state' last later) :
    Stepped state last (events ++ later) := by
  refine ⟨h'.rep, h'.owner.trans h.owner, ?_, Nat.le_trans h.generation h'.generation,
    fun slots allocation hmem => ?_, fun slots hmem => ?_⟩
  · rw [h'.view, h.view, foldl_append]
  · rcases mem_append.mp hmem with hmem | hmem
    · exact h.allocated slots allocation hmem
    · exact Nat.lt_of_le_of_lt h.generation (h'.allocated slots allocation hmem)
  · rcases mem_append.mp hmem with hmem | hmem
    · exact h'.gone (h.released slots hmem)
    · exact h'.released slots hmem

theorem Rep.run {calls : List (WindowCall H)} : ∀ {state last : ExecutionValues H}
    {lives : List (Live H)} {events : List (WindowEvent H)}, Rep state lives →
      run calls state = some (last, events) → Stepped state last events := by
  induction calls with
  | nil =>
    intro state last lives events h hrun
    cases hrun
    exact h.unchanged
  | cons call calls ih =>
    intro state last lives events h hrun
    unfold ExecutionValues.run at hrun
    obtain ⟨⟨next, first⟩, hstep, hrun⟩ := Option.bind_eq_some_iff.mp hrun
    obtain ⟨⟨last', later⟩, hrest, hlast⟩ := Option.bind_eq_some_iff.mp hrun
    cases hlast
    have hstepd := h.step hstep
    obtain ⟨lives', hrep⟩ := hstepd.rep
    exact hstepd.trans (ih hrep hrest)

theorem empty_rep (owner : Nat) : Rep (ExecutionValues.empty owner : ExecutionValues H) [] := by
  refine ⟨⟨rfl, rfl, rfl, fun _ hmem => (nomatch hmem)⟩, rfl, nodup_nil, trivial,
    fun i window hget => ?_, fun _ hmem => (nomatch hmem), List.Pairwise.nil, ⟨[], ⟨⟨⟨noSlot, rfl, rfl⟩,
    nodup_nil, not_mem_nil⟩, fun i => ?_, ?_⟩⟩, fun hlast => nomatch hlast⟩
  · cases hget
  · simp [ExecutionValues.empty, Windows.empty, contents]
  · show 0 < noSlot
    decide

theorem empty_view (owner : Nat) : (ExecutionValues.empty owner : ExecutionValues H).view = fun _ => none := by
  funext slots
  rw [(empty_rep owner).view_eq]
  rfl

/-! ## The last write -/

variable {written : OperandWindow H}

theorem apply_agree {windows : Isolated H}
    (htouch : ¬event.Touches slots operand)
    (h : windows.apply event slots = some written) :
    ∃ window, windows slots = some window ∧ OperandWindow.Agree operand window written := by
  have hother : ∀ {other : FrameSlots} {result : Option (OperandWindow H)},
      update windows other result slots = some written → other ≠ slots →
      ∃ window, windows slots = some window ∧ OperandWindow.Agree operand window written := by
    intro other result h hne
    rw [update_of_ne (Ne.symm hne)] at h
    exact ⟨written, h, OperandWindow.Agree.refl operand written⟩
  -- an operation on the identity itself, through the bank operation `f`
  have hself : ∀ {f : OperandWindow H → Option (OperandWindow H)},
      update windows slots ((windows slots).bind f) slots = some written →
      (∀ window, f window = some written → OperandWindow.Agree operand window written) →
      ∃ window, windows slots = some window ∧ OperandWindow.Agree operand window written := by
    intro f h hf
    rw [update_self] at h
    obtain ⟨window, hwin, hwrt⟩ := Option.bind_eq_some_iff.mp h
    exact ⟨window, hwin, hf window hwrt⟩
  cases event with
  | allocated other allocation => exact hother h htouch
  | released other => exact hother h htouch
  | written other location value =>
    by_cases hname : other = slots
    · subst hname
      exact hself h fun window hwrt =>
        OperandWindow.write_frame hwrt fun heq => htouch ⟨rfl, heq.symm⟩
    · exact hother h hname
  | writtenScalar other location representation bits =>
    by_cases hname : other = slots
    · subst hname
      exact hself h fun window hwrt =>
        OperandWindow.writeScalar_frame hwrt fun heq => htouch ⟨rfl, heq.symm⟩
    · exact hother h hname
  | retained other words =>
    by_cases hname : other = slots
    · subst hname
      refine hself h fun window hwrt => OperandWindow.retain_frame hwrt fun hman => ?_
      by_contra hkp
      exact htouch ⟨rfl, hman, Bool.eq_false_iff.mpr hkp⟩
    · exact hother h hname

theorem foldl_agree :
    ∀ {events : List (WindowEvent H)} {windows : Isolated H},
      (∀ event ∈ events, ¬event.Touches slots operand) →
      events.foldl Isolated.apply windows slots = some written →
      ∃ window, windows slots = some window ∧ OperandWindow.Agree operand window written := by
  intro events
  induction events with
  | nil => exact fun _ h => ⟨written, h, .refl operand written⟩
  | cons event events ih =>
    intro windows htouch h
    obtain ⟨next, hnext, hagree⟩ :=
      ih (fun later hmem => htouch later (mem_cons_of_mem _ hmem)) h
    obtain ⟨window, hwin, hfst⟩ := apply_agree (htouch event mem_cons_self) hnext
    exact ⟨window, hwin, hfst.trans hagree⟩

/-- What an operand holds is what the last event that touched it left. -/
theorem after_last {window : OperandWindow H}
    {before later : List (WindowEvent H)}
    (htouch : ∀ event ∈ later, ¬event.Touches slots location.operand)
    (h : Isolated.after (before ++ event :: later) slots = some window) :
    ∃ left, (Isolated.after before).apply event slots = some left ∧
      window.read location = left.read location := by
  unfold Isolated.after at h
  rw [foldl_append, foldl_cons] at h
  obtain ⟨left, hleft, hagree⟩ := foldl_agree htouch h
  exact ⟨left, hleft, hagree.read⟩

end ExecutionValues

end Kagari.Runtime
