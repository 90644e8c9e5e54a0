import Kagari.Types.SubstitutionBudget

/-!
# Matching

`kagari-types/src/ty/matching.rs`: one-way matching of a checked implementation template against a
requested type. `matchLoop` is the work list of `match_pairs`; its top is the head of a list. The two
callers check what it returns by substituting it, so a returned binding is always right; `match_exact`
says that none is missed either.
-/

namespace Kagari

open Lib List

structure GenericParam where
  owner : DefinitionId
  position : Nat
deriving DecidableEq

/-- The checked header of an implementation. -/
structure ImplementationPattern where
  parameters : List GenericParam
  receiver : Ty
  interface : NominalTy

/-! ## The loop -/

/-- A turn that goes on: the bindings, and the pairs to push, the last one on top. -/
abbrev MatchTurn := Option (TypeSubstitution × List (Ty × Ty))

def matchSame (bindings : TypeSubstitution) (template actual : Ty) : MatchTurn :=
  if template = actual then some (bindings, []) else none

def matchParameter (bindings : TypeSubstitution) (owner : DefinitionId) (position : Nat) (actual : Ty) :
    MatchTurn :=
  match bindings.parameter owner position with
  | some bound => if bound = actual then some (bindings, []) else none
  | none => some (bindings.bind owner position actual, [])

def matchNominal (bindings : TypeSubstitution) (left right : NominalTy) : MatchTurn :=
  if left.declaration ≠ right.declaration ∨ left.arguments.length ≠ right.arguments.length ∨
      left.associatedTypes.map Prod.fst ≠ right.associatedTypes.map Prod.fst then none
  else some (bindings, left.arguments.zip right.arguments ++
    (left.associatedTypes.map Prod.snd).zip (right.associatedTypes.map Prod.snd))

/-- One pair. Where the guard of an arm fails, the arms below it are left: equality, then no match. -/
def matchPair (parameters : List GenericParam) (bindings : TypeSubstitution) (template actual : Ty) :
    MatchTurn :=
  match template, actual with
  | .reference left la, .reference right ra =>
    if la = ra then some (bindings, [(left, right)]) else matchSame bindings template actual
  | .parameter owner position, actual =>
    if parameters.any (fun p => p.owner = owner ∧ p.position = position) then
      matchParameter bindings owner position actual
    else matchSame bindings template actual
  | .struct left, .struct right => matchNominal bindings left right
  | .nativeObject left, .nativeObject right => matchNominal bindings left right
  | .enum left, .enum right => matchNominal bindings left right
  | .trait left, .trait right => matchNominal bindings left right
  | .tuple left, .tuple right =>
    if left.length = right.length then some (bindings, left.zip right)
    else matchSame bindings template actual
  | .function left lr, .function right rr =>
    if left.length = right.length then some (bindings, (lr, rr) :: left.zip right)
    else matchSame bindings template actual
  | .range left a, .range right b =>
    if a = b then some (bindings, [(left, right)]) else matchSame bindings template actual
  | .iter left, .iter right => some (bindings, [(left, right)])
  | .array left, .array right => some (bindings, [(left, right)])
  | .set left a, .set right b =>
    if a = b then some (bindings, [(left, right)]) else matchSame bindings template actual
  | .map lk lv la, .map rk rv ra =>
    if la = ra then some (bindings, [(lk, rk), (lv, rv)]) else matchSame bindings template actual
  | template, actual => matchSame bindings template actual

/-- The work list. The first argument is the number of turns left. -/
def matchLoop (parameters : List GenericParam) (cancel : CancellationToken) :
    Nat → List (Ty × Ty) → TypeSubstitution → Except TypeTransformError (Option TypeSubstitution)
  | _, [], bindings => .ok (some bindings)
  | 0, _ :: _, _ => do
    checkCancel cancel
    .error .limitExceeded
  | remaining + 1, (template, actual) :: pending, bindings => do
    checkCancel cancel
    match matchPair parameters bindings template actual with
    | none => .ok none
    | some (bindings, pairs) =>
      let pending := pairs.reverse ++ pending
      if pending.length > maxTypeNodes * 2 then .error .limitExceeded
      else matchLoop parameters cancel remaining pending bindings

/-- `pending` in the order of the vector: its last pair is on top. -/
def matchPairs (parameters : List GenericParam) (pending : List (Ty × Ty)) (cancel : CancellationToken) :
    Except TypeTransformError (Option TypeSubstitution) :=
  matchLoop parameters cancel (maxTypeNodes * 2) pending.reverse .empty

/-! ## The callers -/

/-- A malformed or oversized tree is reported as a limit error. -/
def shapeError : TypeTransformError → TypeTransformError
  | .cancelled => .cancelled
  | _ => .limitExceeded

/-- Whether every requested output is what the template's output is under the bindings. -/
def matchOutputs (bindings : TypeSubstitution) (implemented : NominalTy) (cancel : CancellationToken) :
    List (DefinitionId × Ty) → Except TypeTransformError Bool
  | [] => .ok true
  | (member, expected) :: outputs => do
    checkCancel cancel
    match implemented.associatedTypes.lookup member with
    | none => .ok false
    | some actual => do
      let actual ← bindings.apply actual cancel
      if actual ≠ expected then .ok false
      else matchOutputs bindings implemented cancel outputs

/-- Whether every argument is its template under the bindings. -/
def matchArguments (bindings : TypeSubstitution) (cancel : CancellationToken) :
    List (Ty × Ty) → Except TypeTransformError Bool
  | [] => .ok true
  | (template, actual) :: pairs => do
    let target ← bindings.apply template cancel
    if target ≠ actual then .ok false
    else matchArguments bindings cancel pairs

def matchPattern (pattern : ImplementationPattern) (interface : NominalTy) (receiver : Ty)
    (cancel : CancellationToken) : Except TypeTransformError (Option TypeSubstitution) := do
  let implemented := pattern.interface
  if pattern.parameters.length > maxTypeNodes then .error .limitExceeded
  else
    (validate pattern.receiver cancel).mapError shapeError
    (validate receiver cancel).mapError shapeError
    if implemented.declaration ≠ interface.declaration ∨
        implemented.arguments.length ≠ interface.arguments.length then .ok none
    else
      (validateNominal interface cancel).mapError shapeError
      (validateNominal implemented cancel).mapError shapeError
      let pending := (pattern.receiver, receiver) :: implemented.arguments.zip interface.arguments
      match ← matchPairs pattern.parameters pending cancel with
      | none => .ok none
      | some bindings =>
        let target ← bindings.apply pattern.receiver cancel
        if target ≠ receiver then .ok none
        else if !(← matchArguments bindings cancel (implemented.arguments.zip interface.arguments)) then
          .ok none
        else if !(← matchOutputs bindings implemented cancel interface.associatedTypes) then .ok none
        else return some bindings

/-- Match an inherent receiver without weakening access or resolving new proofs. -/
def matchReceiver (parameters : List GenericParam) (template actual : Ty) (cancel : CancellationToken) :
    Except TypeTransformError (Option TypeSubstitution) := do
  if parameters.length > maxTypeNodes then .error .limitExceeded
  else
    (validate template cancel).mapError shapeError
    (validate actual cancel).mapError shapeError
    match ← matchPairs parameters [(template, actual)] cancel with
    | none => .ok none
    | some bindings =>
      let target ← bindings.apply template cancel
      if target ≠ actual then .ok none
      else return some bindings

/-! ## What is returned is right -/

theorem mapError_ok {x : Except TypeTransformError Unit} :
    x.mapError shapeError = .ok () ↔ x = .ok () := by
  cases x <;> simp [Except.mapError]

variable {cancel : CancellationToken}

variable {bindings : TypeSubstitution} {interface : NominalTy} {pattern : ImplementationPattern}
  {receiver : Ty} {S : TypeVariable → Prop} {owner : DefinitionId} {position : Nat}

theorem matchReceiver_sound {parameters : List GenericParam} {template actual : Ty}
    (h : matchReceiver parameters template actual cancel = .ok (some bindings)) :
    matchPairs parameters [(template, actual)] cancel = .ok (some bindings) ∧
      bindings.apply template cancel = .ok actual := by
  unfold matchReceiver at h
  split at h
  · cases h
  · obtain ⟨_, -, h⟩ := bind_ok.mp h
    obtain ⟨_, -, h⟩ := bind_ok.mp h
    obtain ⟨found, hfnd, h⟩ := bind_ok.mp h
    cases found with
    | none => cases h
    | some found =>
      obtain ⟨target, htgt, h⟩ := bind_ok.mp h
      split at h
      · cases h
      · rename_i heq
        obtain rfl : found = bindings := Option.some.inj (Except.ok.inj h)
        rw [not_not.mp heq] at htgt
        exact ⟨hfnd, htgt⟩

theorem matchArguments_iff
    {pairs : List (Ty × Ty)} : matchArguments bindings cancel pairs = .ok true ↔
      ∀ p ∈ pairs, bindings.apply p.1 cancel = .ok p.2 := by
  induction pairs with
  | nil => exact iff_of_true rfl nofun
  | cons p pairs ih =>
    obtain ⟨template, actual⟩ := p
    unfold matchArguments
    rw [bind_ok, forall_mem_cons, ← ih]
    constructor
    · rintro ⟨target, htgt, h⟩
      split at h
      · cases h
      · rename_i heq
        exact ⟨by rw [htgt, not_not.mp heq], h⟩
    · rintro ⟨htgt, h⟩
      exact ⟨actual, htgt, by rw [if_neg (not_not.mpr rfl)]; exact h⟩

/-- What the check of one requested output asks. -/
def OutputMatches (bindings : TypeSubstitution) (implemented : NominalTy) (cancel : CancellationToken)
    (output : DefinitionId × Ty) : Prop :=
  ∃ template, implemented.associatedTypes.lookup output.1 = some template ∧
    bindings.apply template cancel = .ok output.2

theorem matchOutputs_iff {implemented : NominalTy}
    {outputs : List (DefinitionId × Ty)}
    (hcanc : checkCancel cancel = .ok ()) :
    matchOutputs bindings implemented cancel outputs = .ok true ↔
      ∀ o ∈ outputs, OutputMatches bindings implemented cancel o := by
  induction outputs with
  | nil => exact iff_of_true rfl nofun
  | cons o outputs ih =>
    obtain ⟨member, expected⟩ := o
    unfold matchOutputs
    rw [hcanc, ok_bind, forall_mem_cons, ← ih]
    cases hlook : implemented.associatedTypes.lookup member with
    | none =>
      refine iff_of_false nofun ?_
      rintro ⟨⟨template, htmpl, -⟩, -⟩
      rw [hlook] at htmpl
      cases htmpl
    | some template =>
      rw [bind_ok]
      constructor
      · rintro ⟨target, htgt, h⟩
        split at h
        · cases h
        · rename_i heq
          exact ⟨⟨template, hlook, by rw [htgt, not_not.mp heq]⟩, h⟩
      · rintro ⟨⟨template', htmpl, htgt⟩, h⟩
        rw [hlook] at htmpl
        cases htmpl
        exact ⟨expected, htgt, by rw [if_neg (not_not.mpr rfl)]; exact h⟩

/-- What the matcher has checked when it returns a binding. -/
structure PatternMatches (pattern : ImplementationPattern) (interface : NominalTy) (receiver : Ty)
    (cancel : CancellationToken) (bindings : TypeSubstitution) : Prop where
  declaration : pattern.interface.declaration = interface.declaration
  length : pattern.interface.arguments.length = interface.arguments.length
  receiver : bindings.apply pattern.receiver cancel = .ok receiver
  arguments : ∀ p ∈ pattern.interface.arguments.zip interface.arguments,
    bindings.apply p.1 cancel = .ok p.2
  outputs : ∀ o ∈ interface.associatedTypes, OutputMatches bindings pattern.interface cancel o

theorem validate_checkCancel {ty : Ty} (h : validate ty cancel = .ok ()) :
    checkCancel cancel = .ok () := by
  obtain ⟨v, hv, -⟩ := bind_ok.mp h
  rw [visit_eq] at hv
  obtain ⟨_, hcanc, -⟩ := bind_ok.mp hv
  exact hcanc

/-- The sizes and shapes that `match_pattern` admits. -/
structure PatternAdmitted (pattern : ImplementationPattern) (interface : NominalTy) (receiver : Ty)
    (cancel : CancellationToken) : Prop where
  parameters : pattern.parameters.length ≤ maxTypeNodes
  template : validate pattern.receiver cancel = .ok ()
  receiver : validate receiver cancel = .ok ()
  interface : validateNominal interface cancel = .ok ()
  implemented : validateNominal pattern.interface cancel = .ok ()

theorem matchPattern_iff
    :
    matchPattern pattern interface receiver cancel = .ok (some bindings) ↔
      PatternAdmitted pattern interface receiver cancel ∧
      matchPairs pattern.parameters
        ((pattern.receiver, receiver) :: pattern.interface.arguments.zip interface.arguments) cancel =
          .ok (some bindings) ∧
      PatternMatches pattern interface receiver cancel bindings := by
  unfold matchPattern
  constructor
  · intro h
    split at h
    · cases h
    rename_i hprms
    obtain ⟨_, htmpl, h⟩ := bind_ok.mp h
    obtain ⟨_, hrecv, h⟩ := bind_ok.mp h
    split at h
    · cases h
    rename_i hhdr
    obtain ⟨_, hiface, h⟩ := bind_ok.mp h
    obtain ⟨_, himplemented, h⟩ := bind_ok.mp h
    obtain ⟨found, hfnd, h⟩ := bind_ok.mp h
    cases found with
    | none => cases h
    | some found =>
      obtain ⟨target, htgt, h⟩ := bind_ok.mp h
      split at h
      · cases h
      rename_i heq
      obtain ⟨arguments, hargs, h⟩ := bind_ok.mp h
      cases arguments with
      | false => cases h
      | true =>
        obtain ⟨outputs, houts, h⟩ := bind_ok.mp h
        cases outputs with
        | false => cases h
        | true =>
          obtain rfl : found = bindings := Option.some.inj (Except.ok.inj h)
          have hcanc := validate_checkCancel (mapError_ok.mp htmpl)
          rw [not_not.mp heq] at htgt
          refine ⟨⟨by omega, mapError_ok.mp htmpl, mapError_ok.mp hrecv,
            mapError_ok.mp hiface, mapError_ok.mp himplemented⟩, hfnd, ?_⟩
          exact ⟨not_not.mp fun hne => hhdr (.inl hne), not_not.mp fun hne => hhdr (.inr hne),
            htgt, matchArguments_iff.mp hargs, (matchOutputs_iff hcanc).mp houts⟩
  · rintro ⟨hadm, hfnd, hmatches⟩
    have hcanc := validate_checkCancel hadm.template
    have hhdr : ¬(pattern.interface.declaration ≠ interface.declaration ∨
        pattern.interface.arguments.length ≠ interface.arguments.length) := by
      simp [hmatches.declaration, hmatches.length]
    rw [if_neg (by have := hadm.parameters; omega), mapError_ok.mpr hadm.template,
      mapError_ok.mpr hadm.receiver]
    simp only [ok_bind]
    rw [if_neg hhdr, mapError_ok.mpr hadm.interface, mapError_ok.mpr hadm.implemented]
    simp only [ok_bind, hfnd, hmatches.receiver, ne_eq, not_true_eq_false, if_false,
      matchArguments_iff.mpr hmatches.arguments, (matchOutputs_iff hcanc).mpr hmatches.outputs]
    rfl

/-! ## What matches is found -/

/-- A type without associated projections. -/
inductive Ty.ProjectionFree : Ty → Prop
  | node {ty : Ty} : (∀ arguments receiver interface member,
      ty ≠ .projection arguments receiver interface member) →
      (∀ k ∈ ty.kids, Ty.ProjectionFree k) → Ty.ProjectionFree ty

/-- A variable as a type. -/
def TypeVariable.ty : TypeVariable → Ty
  | .parameter owner position => .parameter owner position
  | .receiver owner => .selfType owner

/-- A variable of a type is the type, or a variable of a child. -/
theorem Ty.mem_variables_iff {v : TypeVariable} {ty : Ty} :
    v ∈ ty.variables ↔ ty = v.ty ∨ ∃ k ∈ ty.kids, v ∈ k.variables := by
  cases ty with
  | selfType owner =>
    cases v <;> simp [Ty.variables, TypeVariable.ty, Ty.kids, eq_comm]
  | parameter owner position =>
    cases v <;> simp [Ty.variables, TypeVariable.ty, Ty.kids, eq_comm]
  | projection arguments receiver interface member =>
    have hne : Ty.projection arguments receiver interface member ≠ v.ty := by cases v <;> simp [TypeVariable.ty]
    simp only [Ty.variables, mem_append, Ty.mem_variablesAll, Ty.mem_variablesNominal, Ty.kids, hne,
      false_or, mem_cons, or_and_right, exists_or, exists_eq_left, or_assoc]
  | _ =>
    cases v <;> simp [Ty.variables, TypeVariable.ty, Ty.kids, Ty.mem_variablesAll,
      Ty.mem_variablesNominal, or_and_right, exists_or]

/-- What a substitution makes of a type determines it on the variables of the type. -/
theorem Ty.subst_unique {σ τ : TypeVariable → Option Ty} (ty : Ty) (h : ty.subst σ = ty.subst τ) :
    ∀ v ∈ ty.variables, (σ v).getD v.ty = (τ v).getD v.ty := by
  induction ty using Ty.kids_induction with
  | step ty ih =>
    intro v hv
    rcases Ty.mem_variables_iff.mp hv with rfl | ⟨k, hk, hv⟩
    · cases v <;> simpa [TypeVariable.ty, Ty.subst] using h
    · have hval : ∀ ρ : TypeVariable → Option Ty, ty.value ρ = none := by
        intro ρ
        cases ty <;> first | rfl | simp [Ty.kids] at hk
      rw [Ty.subst_eq, Ty.subst_eq, hval, hval, Option.getD_none, Option.getD_none] at h
      have hkids := congrArg Ty.kids h
      rw [Ty.kids_mapKids, Ty.kids_mapKids] at hkids
      exact ih k hk (map_inj_left.mp hkids k hk) v hv

/-- The pattern parameters replaced by the types of a binding. -/
def bindingValues (parameters : List GenericParam) (σ : DefinitionId → Nat → Ty) :
    TypeVariable → Option Ty
  | .parameter owner position =>
    if ⟨owner, position⟩ ∈ parameters then some (σ owner position) else none
  | .receiver _ => none

section Complete

variable {parameters : List GenericParam} {σ : DefinitionId → Nat → Ty}

/-- The binding on the variables in `S`, and nothing else. -/
def Restricts (parameters : List GenericParam) (σ : DefinitionId → Nat → Ty)
    (bindings : TypeSubstitution) (S : TypeVariable → Prop) : Prop :=
  ∀ v, (S v → bindings.values v = bindingValues parameters σ v) ∧ (¬S v → bindings.values v = none)

variable {bindings : TypeSubstitution}

theorem Restricts.congr {S S' : TypeVariable → Prop}
    (h : Restricts parameters σ bindings S) (hS : ∀ v, S v ↔ S' v) :
    Restricts parameters σ bindings S' :=
  fun v => ⟨fun hv => (h v).1 ((hS v).mpr hv), fun hv => (h v).2 fun hs => hv ((hS v).mp hs)⟩

/-- Variables that the binding leaves alone may be added. -/
theorem Restricts.add {S T : TypeVariable → Prop}
    (h : Restricts parameters σ bindings S) (hT : ∀ v, T v → bindingValues parameters σ v = none) :
    Restricts parameters σ bindings fun v => S v ∨ T v := by
  intro v
  refine ⟨?_, fun hv => (h v).2 fun hs => hv (.inl hs)⟩
  rintro (hs | ht)
  · exact (h v).1 hs
  · by_cases hs : S v
    · exact (h v).1 hs
    · rw [(h v).2 hs, hT v ht]

theorem any_iff :
    parameters.any (fun p => p.owner = owner ∧ p.position = position) = true ↔
      ⟨owner, position⟩ ∈ parameters := by
  rw [any_eq_true]
  constructor
  · rintro ⟨p, hp, heq⟩
    obtain ⟨rfl, rfl⟩ := of_decide_eq_true heq
    exact hp
  · exact fun h => ⟨_, h, decide_eq_true ⟨rfl, rfl⟩⟩

/-- A pattern parameter is bound to its type, or was bound to it before. -/
theorem matchParameter_of_subst
    (h : Restricts parameters σ bindings S)
    (hmem : ⟨owner, position⟩ ∈ parameters) :
    ∃ bindings', matchParameter bindings owner position (σ owner position) = some (bindings', []) ∧
      Restricts parameters σ bindings' fun v => S v ∨ v = .parameter owner position := by
  have hval : bindingValues parameters σ (.parameter owner position) = some (σ owner position) :=
    if_pos hmem
  unfold matchParameter TypeSubstitution.parameter
  by_cases hs : S (.parameter owner position)
  · have hbnd : bindings.parameters owner position = some (σ owner position) :=
      ((h _).1 hs).trans hval
    rw [hbnd]
    refine ⟨bindings, if_pos rfl, h.congr fun v => ⟨.inl, ?_⟩⟩
    rintro (hv | rfl)
    · exact hv
    · exact hs
  · have hunb : bindings.parameters owner position = none := (h _).2 hs
    rw [hunb]
    refine ⟨_, rfl, fun v => ?_⟩
    by_cases hv : v = .parameter owner position
    · subst hv
      refine ⟨fun _ => ?_, fun hno => absurd (.inr rfl) hno⟩
      rw [hval]
      exact if_pos ⟨rfl, rfl⟩
    · have hsame : (bindings.bind owner position (σ owner position)).values v = bindings.values v := by
        cases v with
        | parameter o p =>
          refine if_neg fun heq => hv ?_
          rw [heq.1, heq.2]
        | receiver o => rfl
      rw [hsame]
      exact ⟨fun hs' => (h v).1 (hs'.resolve_right hv), fun hno => (h v).2 fun hs' => hno (.inl hs')⟩

theorem matchNominal_of_subst (bindings : TypeSubstitution) (f : Ty → Ty) (n : NominalTy) :
    matchNominal bindings n (n.mapKids f) = some (bindings, n.kids.map fun k => (k, f k)) := by
  obtain ⟨d, as, bs⟩ := n
  have hkeys : (bs.map fun b => (b.1, f b.2)).map Prod.fst = bs.map Prod.fst := by
    rw [map_map]
    rfl
  have hvals : (bs.map fun b => (b.1, f b.2)).map Prod.snd = (bs.map Prod.snd).map f := by
    rw [map_map, map_map]
    rfl
  unfold matchNominal
  rw [if_neg (by simp [Nominal.mapKids, Function.comp_def])]
  simp only [Nominal.mapKids, Nominal.kids, hvals, map_append]
  rw [map_prod_left_eq_zip, map_prod_left_eq_zip]

/-- A pair that the binding makes equal goes on, with the pairs of its children. -/
theorem matchPair_of_subst {template : Ty}
    (hfree : template.ProjectionFree) (h : Restricts parameters σ bindings S) :
    ∃ bindings' pairs,
      matchPair parameters bindings template (template.subst (bindingValues parameters σ)) =
        some (bindings', pairs) ∧
      (∀ p ∈ pairs, p.2 = p.1.subst (bindingValues parameters σ)) ∧
      (pairs.map Prod.fst).Perm template.kids ∧
      Restricts parameters σ bindings' fun v => S v ∨ template = v.ty := by
  generalize hσ : bindingValues parameters σ = values
  have hsame : ∀ {ty : Ty}, (∀ v : TypeVariable, ty = v.ty → values v = none) →
      Restricts parameters σ bindings fun v => S v ∨ ty = v.ty := by
    intro ty hty
    refine h.add fun v hv => ?_
    rw [hσ]
    exact hty v hv
  have hnever : ∀ {ty : Ty}, (∀ v : TypeVariable, ty ≠ v.ty) →
      Restricts parameters σ bindings fun v => S v ∨ ty = v.ty :=
    fun hty => hsame fun v hv => absurd hv (hty v)
  have hfst : ∀ ts : List Ty, (ts.map fun k => (k, k.subst values)).map Prod.fst = ts := by
    intro ts
    rw [map_map]
    exact map_id ts
  have hsnd : ∀ {ts : List Ty} {p : Ty × Ty}, p ∈ (ts.map fun k => (k, k.subst values)) →
      p.2 = p.1.subst values := by
    intro ts p hp
    obtain ⟨k, -, rfl⟩ := mem_map.mp hp
    rfl
  cases template with
  | projection arguments receiver interface member =>
    obtain ⟨hne, -⟩ := hfree
    exact absurd rfl (hne _ _ _ _)
  | parameter owner position =>
    by_cases hmem : ⟨owner, position⟩ ∈ parameters
    · have hval : (Ty.parameter owner position).subst values = σ owner position := by
        rw [← hσ]
        simp [Ty.subst, bindingValues, hmem]
      obtain ⟨bindings', hrun, hrestr⟩ := matchParameter_of_subst h hmem
      refine ⟨bindings', [], ?_, by simp, .nil, hrestr.congr fun v => ?_⟩
      · rw [hval]
        unfold matchPair
        simp only [any_iff.mpr hmem, if_true]
        exact hrun
      · cases v <;> simp [TypeVariable.ty, eq_comm]
    · have hval : values (.parameter owner position) = none := by
        rw [← hσ]
        exact if_neg hmem
      refine ⟨bindings, [], ?_, by simp, .nil, hsame fun v hv => ?_⟩
      · have hany : ¬parameters.any (fun p => p.owner = owner ∧ p.position = position) = true :=
          fun hany => hmem (any_iff.mp hany)
        simp only [Ty.subst, hval, Option.getD_none]
        exact (if_neg hany).trans (if_pos rfl)
      · cases v with
        | parameter o p =>
          obtain ⟨rfl, rfl⟩ := Ty.parameter.inj hv
          exact hval
        | receiver o => cases hv
  | selfType owner =>
    have hval : values (.receiver owner) = none := by
      rw [← hσ]
      rfl
    refine ⟨bindings, [], ?_, by simp, .nil, hsame fun v hv => ?_⟩
    · simp only [Ty.subst, hval, Option.getD_none]
      exact if_pos rfl
    · cases v with
      | parameter o p => cases hv
      | receiver o =>
        obtain rfl := Ty.selfType.inj hv
        exact hval
  | host id => exact ⟨bindings, [], if_pos rfl, by simp, .nil, hnever fun v => by cases v <;> simp [TypeVariable.ty]⟩
  | builtin b => exact ⟨bindings, [], if_pos rfl, by simp, .nil, hnever fun v => by cases v <;> simp [TypeVariable.ty]⟩
  | tuple elements =>
    refine ⟨bindings, elements.map fun k => (k, k.subst values), ?_, fun p hp => hsnd hp, ?_,
      hnever fun v => by cases v <;> simp [TypeVariable.ty]⟩
    · rw [map_prod_left_eq_zip]
      simp only [Ty.subst, Ty.substAll_eq, matchPair, length_map, if_true]
    · rw [hfst]
      exact .refl _
  | function params result =>
    refine ⟨bindings, (result :: params).map fun k => (k, k.subst values), ?_, fun p hp => hsnd hp, ?_,
      hnever fun v => by cases v <;> simp [TypeVariable.ty]⟩
    · rw [map_cons, map_prod_left_eq_zip]
      simp only [Ty.subst, Ty.substAll_eq, matchPair, length_map, if_true]
    · rw [hfst]
      exact (perm_append_singleton result params).symm
  | map key value access =>
    refine ⟨bindings, [key, value].map fun k => (k, k.subst values), ?_, fun p hp => hsnd hp, ?_,
      hnever fun v => by cases v <;> simp [TypeVariable.ty]⟩
    · simp only [Ty.subst, matchPair, if_true, map_cons, map_nil]
    · rw [hfst]
      exact .refl _
  | iter k | range k _ | array k | set k _ | reference k _ =>
    refine ⟨bindings, [k].map fun k => (k, k.subst values), ?_, fun p hp => hsnd hp, ?_,
      hnever fun v => by cases v <;> simp [TypeVariable.ty]⟩
    · simp only [Ty.subst, matchPair, if_true, map_cons, map_nil]
    · rw [hfst]
      exact .refl _
  | struct n | nativeObject n | enum n | trait n =>
    refine ⟨bindings, n.kids.map fun k => (k, k.subst values), ?_, fun p hp => hsnd hp, ?_,
      hnever fun v => by cases v <;> simp [TypeVariable.ty]⟩
    · simp only [Ty.subst, Ty.substNominal_eq, matchPair]
      exact matchNominal_of_subst bindings _ n
    · rw [hfst]
      exact .refl _

/-- The nodes of the templates in a work list. -/
def pendingNodes (pending : List (Ty × Ty)) : Nat := ((pending.map Prod.fst).map Ty.nodes).sum

theorem length_le_pendingNodes (pending : List (Ty × Ty)) : pending.length ≤ pendingNodes pending := by
  have hlen := length_le_nodes (pending.map Prod.fst)
  rwa [length_map] at hlen

/-- While the binding makes every pair equal, the loop goes on to its end, and returns the binding on
the variables it has met. Every turn takes one node of a template. -/
theorem matchLoop_of_subst (remaining : Nat) : ∀ (pending : List (Ty × Ty)) (bindings : TypeSubstitution)
    (S : TypeVariable → Prop),
    (∀ p ∈ pending, p.1.ProjectionFree ∧ p.2 = p.1.subst (bindingValues parameters σ)) →
    Restricts parameters σ bindings S → pendingNodes pending ≤ remaining →
    remaining ≤ maxTypeNodes * 2 →
    ∃ bindings', matchLoop parameters false remaining pending bindings = .ok (some bindings') ∧
      Restricts parameters σ bindings' fun v => S v ∨ ∃ p ∈ pending, v ∈ p.1.variables := by
  induction remaining with
  | zero =>
    intro pending bindings S hpend hrestr hnds _
    have hlen := length_le_pendingNodes pending
    obtain rfl : pending = [] := length_eq_zero_iff.mp (by omega)
    exact ⟨bindings, rfl, hrestr.congr fun v => by simp⟩
  | succ remaining ih =>
    intro pending bindings S hpend hrestr hnds hle
    cases pending with
    | nil => exact ⟨bindings, rfl, hrestr.congr fun v => by simp⟩
    | cons p pending =>
      obtain ⟨template, actual⟩ := p
      obtain ⟨⟨hfree, hactl⟩, hrest⟩ := forall_mem_cons.mp hpend
      dsimp only at hfree hactl
      subst hactl
      obtain ⟨bindings', pairs, hpair, hpairs, hperm, hrestr'⟩ := matchPair_of_subst hfree hrestr
      have hsum : pendingNodes (pairs.reverse ++ pending) + 1 =
          pendingNodes ((template, template.subst (bindingValues parameters σ)) :: pending) := by
        have hkids : (((pairs.reverse).map Prod.fst).map Ty.nodes).sum = (template.kids.map Ty.nodes).sum :=
          (((reverse_perm pairs).map Prod.fst).trans hperm |>.map Ty.nodes).sum_eq
        unfold pendingNodes
        rw [map_append, map_append, sum_append, hkids, map_cons, map_cons,
          sum_cons, template.nodes_eq]
        omega
      have hkid : ∀ p ∈ pairs, p.1 ∈ template.kids :=
        fun p hp => hperm.mem_iff.mp (mem_map_of_mem hp)
      have hnext : ∀ p ∈ pairs.reverse ++ pending,
          p.1.ProjectionFree ∧ p.2 = p.1.subst (bindingValues parameters σ) := by
        intro p hp
        rcases mem_append.mp hp with hp | hp
        · have hp' := mem_reverse.mp hp
          obtain ⟨-, hfrees⟩ := hfree
          exact ⟨hfrees _ (hkid p hp'), hpairs p hp'⟩
        · exact hrest p hp
      have hlen := length_le_pendingNodes (pairs.reverse ++ pending)
      obtain ⟨out, hout, hrestr''⟩ := ih _ bindings' _ hnext hrestr' (by omega) (by omega)
      refine ⟨out, ?_, hrestr''.congr fun v => ?_⟩
      · unfold matchLoop
        simp only [hpair]
        rw [if_neg (by omega)]
        exact hout
      · -- the variables met are those of the template itself and those of its children
        have hvars : (∃ p ∈ pairs.reverse ++ pending, v ∈ p.1.variables) ↔
            (∃ k ∈ template.kids, v ∈ k.variables) ∨ ∃ p ∈ pending, v ∈ p.1.variables := by
          have hmem : ∀ k, k ∈ template.kids ↔ ∃ p ∈ pairs, p.1 = k := by
            intro k
            rw [← hperm.mem_iff, mem_map]
          simp only [hmem, mem_append, mem_reverse]
          grind
        have htmpl : v ∈ template.variables ↔ template = v.ty ∨ ∃ k ∈ template.kids, v ∈ k.variables :=
          Ty.mem_variables_iff
        rw [hvars]
        simp only [mem_cons, exists_eq_or_imp, htmpl, or_assoc]

/-- A binding is determined on the variables of a type by what it makes of the type. -/
theorem bindingValues_unique {τ : DefinitionId → Nat → Ty} (ty : Ty)
    (h : ty.subst (bindingValues parameters σ) = ty.subst (bindingValues parameters τ)) :
    ∀ v ∈ ty.variables, bindingValues parameters σ v = bindingValues parameters τ v := by
  intro v hv
  have hval := ty.subst_unique h v hv
  cases v with
  | receiver owner => rfl
  | parameter owner position =>
    by_cases hmem : (⟨owner, position⟩ : GenericParam) ∈ parameters
    · simpa [bindingValues, hmem] using hval
    · simp [bindingValues, hmem]

theorem Restricts.empty : Restricts parameters σ .empty fun _ => False := by
  intro v
  refine ⟨nofun, fun _ => ?_⟩
  cases v <;> rfl

theorem Restricts.subst_eq
    (h : Restricts parameters σ bindings S) {ty : Ty} (hS : ∀ v ∈ ty.variables, S v) :
    ty.subst bindings.values = ty.subst (bindingValues parameters σ) :=
  ty.subst_congr fun v hv => (h v).1 (hS v hv)

/-- From the empty binding, a work list that fits. -/
theorem matchPairs_of_subst {pending : List (Ty × Ty)}
    (hpend : ∀ p ∈ pending, p.1.ProjectionFree ∧ p.2 = p.1.subst (bindingValues parameters σ))
    (hnds : pendingNodes pending ≤ maxTypeNodes * 2) :
    ∃ bindings, matchPairs parameters pending false = .ok (some bindings) ∧
      Restricts parameters σ bindings fun v => ∃ p ∈ pending, v ∈ p.1.variables := by
  have hrevs : pendingNodes pending.reverse = pendingNodes pending :=
    (((reverse_perm pending).map Prod.fst).map Ty.nodes).sum_eq
  obtain ⟨bindings, hrun, hrestr⟩ := matchLoop_of_subst (maxTypeNodes * 2) pending.reverse .empty
    (fun _ => False) (fun p hp => hpend p (mem_reverse.mp hp)) Restricts.empty (by omega)
    (Nat.le_refl _)
  exact ⟨bindings, hrun, hrestr.congr fun v => by simp⟩

theorem matchReceiver_complete {template actual : Ty} (hprms : parameters.length ≤ maxTypeNodes)
    (htmpl : validate template false = .ok ()) (hactl : validate actual false = .ok ())
    (hfree : template.ProjectionFree)
    (hsubst : template.subst (bindingValues parameters σ) = actual) :
    ∃ bindings, matchReceiver parameters template actual false = .ok (some bindings) ∧
      Restricts parameters σ bindings (· ∈ template.variables) := by
  have hnds : pendingNodes [(template, actual)] ≤ maxTypeNodes * 2 := by
    have := (validate_ok htmpl).1
    simp only [pendingNodes, map_cons, map_nil, sum_cons, sum_nil]
    omega
  have hpend : ∀ p ∈ [(template, actual)],
      p.1.ProjectionFree ∧ p.2 = p.1.subst (bindingValues parameters σ) :=
    forall_mem_singleton.mpr ⟨hfree, hsubst.symm⟩
  obtain ⟨bindings, hrun, hrestr⟩ := matchPairs_of_subst hpend hnds
  have hrestr' : Restricts parameters σ bindings (· ∈ template.variables) :=
    hrestr.congr fun v => by simp
  have happly : bindings.apply template false = .ok actual := by
    refine TypeSubstitution.apply_iff.mpr ⟨?_, withinWireLimits_iff.mpr hactl⟩
    rw [hrestr'.subst_eq fun v hv => hv, hsubst]
  refine ⟨bindings, ?_, hrestr'⟩
  unfold matchReceiver
  rw [if_neg (by omega), mapError_ok.mpr htmpl, mapError_ok.mpr hactl]
  simp only [ok_bind, hrun, happly, ne_eq, not_true_eq_false, if_false]
  rfl

/-! ### Headers -/

/-- A variable of the receiver or of an argument of the interface. -/
def HeaderVariable (pattern : ImplementationPattern) (v : TypeVariable) : Prop :=
  v ∈ pattern.receiver.variables ∨ ∃ t ∈ pattern.interface.arguments, v ∈ t.variables

/-- The header of the implementation is the requested one under a substitution. -/
structure HeaderMatches (pattern : ImplementationPattern) (interface : NominalTy) (receiver : Ty)
    (values : TypeVariable → Option Ty) : Prop where
  declaration : pattern.interface.declaration = interface.declaration
  receiver : pattern.receiver.subst values = receiver
  arguments : pattern.interface.arguments.map (Ty.subst values) = interface.arguments

/-- A header without associated projections. -/
structure HeaderFree (pattern : ImplementationPattern) : Prop where
  receiver : pattern.receiver.ProjectionFree
  arguments : ∀ t ∈ pattern.interface.arguments, t.ProjectionFree

theorem matchPattern_complete
    (hadm : PatternAdmitted pattern interface receiver false) (hfree : HeaderFree pattern)
    (hhdr : HeaderMatches pattern interface receiver (bindingValues pattern.parameters σ)) :
    ∃ bindings, Restricts pattern.parameters σ bindings (HeaderVariable pattern) ∧
      (matchPattern pattern interface receiver false = .ok (some bindings) ↔
        ∀ o ∈ interface.associatedTypes, ∃ template,
          pattern.interface.associatedTypes.lookup o.1 = some template ∧
            template.subst bindings.values = o.2) := by
  set values := bindingValues pattern.parameters σ with hvals
  have hzip : pattern.interface.arguments.zip interface.arguments =
      pattern.interface.arguments.map fun k => (k, k.subst values) := by
    rw [← hhdr.arguments, map_prod_left_eq_zip]
  obtain ⟨himplemented, -⟩ := validateNominal_ok hadm.implemented
  obtain ⟨-, hlims⟩ := validateNominal_ok hadm.interface
  have hnds : pendingNodes ((pattern.receiver, receiver) ::
      pattern.interface.arguments.zip interface.arguments) ≤ maxTypeNodes * 2 := by
    have hrecv := (validate_ok hadm.template).1
    have hargs : (pattern.interface.arguments.map Ty.nodes).sum ≤ Ty.nodesNominal pattern.interface := by
      rw [Ty.nodesNominal_eq, Nominal.kids, map_append, sum_append]
      omega
    unfold pendingNodes
    rw [hzip, map_cons, map_cons, sum_cons, map_map, map_map]
    show _ + (pattern.interface.arguments.map Ty.nodes).sum ≤ _
    dsimp only
    omega
  have hpend : ∀ p ∈ (pattern.receiver, receiver) ::
      pattern.interface.arguments.zip interface.arguments,
      p.1.ProjectionFree ∧ p.2 = p.1.subst values := by
    rw [hzip]
    refine forall_mem_cons.mpr ⟨⟨hfree.receiver, hhdr.receiver.symm⟩, fun p hp => ?_⟩
    obtain ⟨t, ht, rfl⟩ := mem_map.mp hp
    exact ⟨hfree.arguments t ht, rfl⟩
  obtain ⟨bindings, hrun, hrestr⟩ := matchPairs_of_subst hpend hnds
  have hrestr' : Restricts pattern.parameters σ bindings (HeaderVariable pattern) := by
    refine hrestr.congr fun v => ?_
    rw [hzip]
    simp [HeaderVariable]
  have hlen : pattern.interface.arguments.length = interface.arguments.length := by
    rw [← hhdr.arguments, length_map]
  have hrecv : bindings.apply pattern.receiver false = .ok receiver := by
    refine TypeSubstitution.apply_iff.mpr ⟨?_, withinWireLimits_iff.mpr hadm.receiver⟩
    rw [hrestr'.subst_eq fun v hv => .inl hv]
    exact hhdr.receiver.symm
  have hargs : ∀ p ∈ pattern.interface.arguments.zip interface.arguments,
      bindings.apply p.1 false = .ok p.2 := by
    intro p hp
    have hlim := hlims p.2 (mem_append_left _ (of_mem_zip hp).2)
    rw [hzip] at hp
    obtain ⟨t, ht, rfl⟩ := mem_map.mp hp
    refine TypeSubstitution.apply_iff.mpr ⟨?_, hlim⟩
    exact (hrestr'.subst_eq fun v hv => .inr ⟨t, ht, hv⟩).symm
  refine ⟨bindings, hrestr', ?_⟩
  rw [matchPattern_iff]
  constructor
  · rintro ⟨-, -, hmatches⟩ o ho
    obtain ⟨template, hlook, happly⟩ := hmatches.outputs o ho
    exact ⟨template, hlook, (TypeSubstitution.apply_iff.mp happly).1.symm⟩
  · intro houts
    refine ⟨hadm, hrun, hhdr.declaration, hlen, hrecv, hargs, fun o ho => ?_⟩
    obtain ⟨template, hlook, hsubst⟩ := houts o ho
    have hlim := hlims o.2 (mem_append_right _ (mem_map_of_mem ho))
    exact ⟨template, hlook, TypeSubstitution.apply_iff.mpr ⟨hsubst.symm, hlim⟩⟩

end Complete

/-- A returned binding makes the template the actual type. Of the templates without associated
projections that the matchers admit, none that some binding of the pattern parameters makes equal to
the actual type is missed: that binding is returned on the variables of the template, and it is the
only one there. `match_pattern` asks this of the receiver and of the arguments of the interface, and
then compares the requested outputs under the binding it found. -/
theorem match_exact :
    (∀ parameters template actual cancel bindings,
      matchReceiver parameters template actual cancel = .ok (some bindings) →
        bindings.apply template cancel = .ok actual) ∧
    (∀ pattern interface receiver cancel bindings,
      matchPattern pattern interface receiver cancel = .ok (some bindings) →
        PatternMatches pattern interface receiver cancel bindings) ∧
    (∀ parameters template actual σ, parameters.length ≤ maxTypeNodes →
      validate template false = .ok () → validate actual false = .ok () → template.ProjectionFree →
      template.subst (bindingValues parameters σ) = actual →
        ∃ bindings, matchReceiver parameters template actual false = .ok (some bindings) ∧
          Restricts parameters σ bindings (· ∈ template.variables) ∧
          ∀ τ, template.subst (bindingValues parameters τ) = actual →
            ∀ v ∈ template.variables, bindingValues parameters τ v = bindings.values v) ∧
    (∀ pattern interface receiver σ, PatternAdmitted pattern interface receiver false →
      HeaderFree pattern → HeaderMatches pattern interface receiver (bindingValues pattern.parameters σ) →
        ∃ bindings, Restricts pattern.parameters σ bindings (HeaderVariable pattern) ∧
          (∀ τ, HeaderMatches pattern interface receiver (bindingValues pattern.parameters τ) →
            ∀ v, HeaderVariable pattern v → bindingValues pattern.parameters τ v = bindings.values v) ∧
          (matchPattern pattern interface receiver false = .ok (some bindings) ↔
            ∀ o ∈ interface.associatedTypes, ∃ template,
              pattern.interface.associatedTypes.lookup o.1 = some template ∧
                template.subst bindings.values = o.2)) := by
  refine ⟨fun _ _ _ _ _ h => (matchReceiver_sound h).2, fun _ _ _ _ _ h => (matchPattern_iff.mp h).2.2,
    ?_, ?_⟩
  · intro parameters template actual σ hprms htmpl hactl hfree hsubst
    obtain ⟨bindings, hrun, hrestr⟩ :=
      matchReceiver_complete hprms htmpl hactl hfree hsubst
    refine ⟨bindings, hrun, hrestr, fun τ hτ v hv => ?_⟩
    rw [(hrestr v).1 hv]
    exact bindingValues_unique template (hτ.trans hsubst.symm) v hv
  · intro pattern interface receiver σ hadm hfree hhdr
    obtain ⟨bindings, hrestr, hiff⟩ := matchPattern_complete hadm hfree hhdr
    refine ⟨bindings, hrestr, fun τ hτ v hv => ?_, hiff⟩
    rw [(hrestr v).1 hv]
    rcases hv with hv | ⟨t, ht, hv⟩
    · exact bindingValues_unique _ (hτ.receiver.trans hhdr.receiver.symm) v hv
    · have hargs := hτ.arguments.trans hhdr.arguments.symm
      exact bindingValues_unique t (List.map_inj_left.mp hargs t ht) v hv

/-- Templates that have their parameter more than once, the second one in the output of an interface. -/
theorem match_exact_twice :
    (∃ bindings, matchReceiver [⟨⟨1, 0⟩, 0⟩]
      (.tuple [.parameter ⟨1, 0⟩ 0, .array (.parameter ⟨1, 0⟩ 0)])
      (.tuple [.builtin .i32, .array (.builtin .i32)]) false = .ok (some bindings) ∧
      bindings.parameter ⟨1, 0⟩ 0 = some (.builtin .i32)) ∧
    ∃ bindings, matchPattern ⟨[⟨⟨1, 0⟩, 0⟩], .array (.parameter ⟨1, 0⟩ 0),
        ⟨⟨1, 1⟩, [.parameter ⟨1, 0⟩ 0], [(⟨1, 2⟩, .iter (.parameter ⟨1, 0⟩ 0))]⟩⟩
      ⟨⟨1, 1⟩, [.builtin .i32], [(⟨1, 2⟩, .iter (.builtin .i32))]⟩ (.array (.builtin .i32)) false =
        .ok (some bindings) ∧
      bindings.parameter ⟨1, 0⟩ 0 = some (.builtin .i32) := by
  have hprm : (Ty.parameter ⟨1, 0⟩ 0).ProjectionFree := .node nofun nofun
  have harray : (Ty.array (.parameter ⟨1, 0⟩ 0)).ProjectionFree :=
    .node nofun (List.forall_mem_singleton.mpr hprm)
  have hfree : (Ty.tuple [.parameter ⟨1, 0⟩ 0, .array (.parameter ⟨1, 0⟩ 0)]).ProjectionFree :=
    .node nofun (List.forall_mem_cons.mpr ⟨hprm, List.forall_mem_singleton.mpr harray⟩)
  constructor
  · obtain ⟨bindings, hrun, hrestr, -⟩ := match_exact.2.2.1 [⟨⟨1, 0⟩, 0⟩]
      (.tuple [.parameter ⟨1, 0⟩ 0, .array (.parameter ⟨1, 0⟩ 0)])
      (.tuple [.builtin .i32, .array (.builtin .i32)]) (fun _ _ => .builtin .i32) (by decide) rfl rfl hfree rfl
    exact ⟨bindings, hrun, (hrestr (.parameter ⟨1, 0⟩ 0)).1 (by decide)⟩
  · obtain ⟨bindings, hrestr, -, hiff⟩ := match_exact.2.2.2 ⟨[⟨⟨1, 0⟩, 0⟩], .array (.parameter ⟨1, 0⟩ 0),
        ⟨⟨1, 1⟩, [.parameter ⟨1, 0⟩ 0], [(⟨1, 2⟩, .iter (.parameter ⟨1, 0⟩ 0))]⟩⟩
      ⟨⟨1, 1⟩, [.builtin .i32], [(⟨1, 2⟩, .iter (.builtin .i32))]⟩ (.array (.builtin .i32)) (fun _ _ => .builtin .i32)
      ⟨by decide, rfl, rfl, rfl, rfl⟩ ⟨harray, List.forall_mem_singleton.mpr hprm⟩ ⟨rfl, rfl, rfl⟩
    have hval := (hrestr (.parameter ⟨1, 0⟩ 0)).1 (.inl (by decide))
    refine ⟨bindings, hiff.mpr (List.forall_mem_singleton.mpr ⟨_, rfl, ?_⟩), hval⟩
    simp only [Ty.subst, hval]
    rfl

end Kagari
