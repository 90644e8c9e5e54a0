import Kagari.Lib.Firsts
import Kagari.Types.Portable
import Kagari.Updates.Bincode
import Kagari.Updates.Visit

/-!
# Merging demand history

`union_demands` (`kagari-contract/src/updates/demands.rs`): the records of two envelopes, each kept where
its key is new. The keys are taken in one encoding, of every definition that either envelope names.

- `DemandEnvelope.union`: the first occurrences, with its laws
- `unionDemands_eq`: what is returned is the union; the only errors are a limit and a set token
- `demandHistory`: no record is lost or doubled, in whatever order the history is merged
-/

namespace Kagari.Updates

open Lib Identity Outcomes List

/-! ## The union of two envelopes -/

noncomputable instance : DecidableEq BodyRequirement := Classical.decEq _

noncomputable instance : DecidableEq CallRequirement := Classical.decEq _

namespace DemandEnvelope

/-- The first occurrences of the records of both. -/
noncomputable def union (previous candidate : DemandEnvelope) : DemandEnvelope where
  applications := (previous.applications ++ candidate.applications).eraseDups
  bodies := (previous.bodies ++ candidate.bodies).eraseDups
  requirements := (previous.requirements ++ candidate.requirements).eraseDups

/-- No record is held twice. -/
structure DuplicateFree (value : DemandEnvelope) : Prop where
  applications : value.applications.Nodup
  bodies : value.bodies.Nodup
  requirements : value.requirements.Nodup

/-- As sets of records, the first is the union of the others. -/
structure IsUnion (value previous candidate : DemandEnvelope) : Prop where
  applications : ∀ a, a ∈ value.applications ↔ a ∈ previous.applications ∨ a ∈ candidate.applications
  bodies : ∀ b, b ∈ value.bodies ↔ b ∈ previous.bodies ∨ b ∈ candidate.bodies
  requirements : ∀ c, c ∈ value.requirements ↔ c ∈ previous.requirements ∨ c ∈ candidate.requirements

/-- The same records, in some order. -/
structure Reordered (value value' : DemandEnvelope) : Prop where
  applications : value.applications.Perm value'.applications
  bodies : value.bodies.Perm value'.bodies
  requirements : value.requirements.Perm value'.requirements

variable {previous candidate value : DemandEnvelope}

theorem isUnion_union (previous candidate : DemandEnvelope) :
    (previous.union candidate).IsUnion previous candidate := by
  constructor <;> simp [union, mem_eraseDups]

theorem duplicateFree_union (previous candidate : DemandEnvelope) : (previous.union candidate).DuplicateFree :=
  ⟨nodup_eraseDups _, nodup_eraseDups _, nodup_eraseDups _⟩

theorem union_assoc (first second third : DemandEnvelope) :
    (first.union second).union third = first.union (second.union third) := by
  simp only [union, eraseDups_append_left, eraseDups_append_right, append_assoc]

theorem union_comm (previous candidate : DemandEnvelope) :
    (previous.union candidate).Reordered (candidate.union previous) :=
  ⟨eraseDups_append_comm _ _, eraseDups_append_comm _ _, eraseDups_append_comm _ _⟩

theorem union_empty (h : value.DuplicateFree) : value.union {} = value := by
  simp [union, eraseDups_of_nodup h.applications, eraseDups_of_nodup h.bodies, eraseDups_of_nodup h.requirements]

theorem empty_union (h : value.DuplicateFree) : ({} : DemandEnvelope).union value = value := by
  simp [union, eraseDups_of_nodup h.applications, eraseDups_of_nodup h.bodies, eraseDups_of_nodup h.requirements]

/-- Merging an envelope with itself removes its duplicates, and nothing else. -/
theorem union_self (value : DemandEnvelope) : value.union value = value.union {} := by
  simp only [union, append_nil, eraseDups_append_self]

end DemandEnvelope

/-! ## Merging -/

section Merge

variable {K : Type} [DecidableEq K] (serializer : Serializer K) (cancel : CancellationToken)

/-- The visitor: a visit is charged before the definition is noted. -/
def noteDefinition (id : DefinitionId) : StateT (List DefinitionId × Budget) (Except (Stopped cancel)) PUnit := do
  let (references, budget) ← get
  let ((), budget) ← (Budget.visit cancel).run budget
  set (if id ∈ references then references else references ++ [id], budget)

def noteDefinitions (previous candidate : DemandEnvelope) :
    StateT (List DefinitionId × Budget) (Except (Stopped cancel)) PUnit := do
  previous.visitDefinitionIds cancel (noteDefinition cancel)
  candidate.visitDefinitionIds cancel (noteDefinition cancel)

/-- The three loops. -/
def unionWith (encoding : DefinitionEncoding) (previous candidate : DemandEnvelope) : UpdateM DemandEnvelope := do
  let applicationKey (application : BodyApplication) : UpdateM K := do
    charged do
      Budget.visit cancel
      nested cancel application.arguments.length
    application.key serializer encoding cancel
  let bodyKey (body : BodyRequirement) : UpdateM K := do
    charged (Budget.visit cancel)
    body.key serializer encoding cancel
  let callKey (call : CallRequirement) : UpdateM K := do
    charged (Budget.visit cancel)
    call.key serializer encoding cancel
  let applications ← retainLoop applicationKey (fun application => charged (Budget.application cancel application))
    (previous.applications ++ candidate.applications) [] []
  let bodies ← retainLoop bodyKey (fun _ => pure ()) (previous.bodies ++ candidate.bodies) [] []
  let requirements ← retainLoop callKey (fun _ => pure ()) (previous.requirements ++ candidate.requirements) [] []
  return { applications, bodies, requirements }

/-- `union_demands`: the identities are a hash set, iterated in the order of `iteration`. -/
def unionDemands (order : List Nat → List Nat) (iteration : List DefinitionId → List DefinitionId)
    (definitions : DefinitionTable) (previous candidate : DemandEnvelope) (budget : Budget) :
    ExceptT UpdateError Option (DemandEnvelope × Budget) := do
  let (_, references, budget) ← ExceptT.mk (some
    (((noteDefinitions cancel previous candidate).run ([], budget)).mapError fun e => .ofMapping e.mapping))
  let encoding ← ExceptT.mk (((definitions.encode order (iteration references)).run).map
    (·.mapError fun e => .ofMapping (.identity e)))
  let encoding ← ExceptT.lift (encodingView encoding)
  ExceptT.mk (some ((unionWith serializer cancel encoding previous candidate).run budget))

end Merge

/-! ## What a merge returns -/

/-- The envelope names definitions of the table, and the bindings of its types stand in key order. -/
structure DemandEnvelope.Over (definitions : DefinitionTable) (value : DemandEnvelope) : Prop where
  ordered : AllParts Part.Ordered value.parts
  known : ∀ part ∈ value.parts, ∀ id ∈ part.definitions, validateId definitions.id definitions.data id = .ok ()

variable {value : DemandEnvelope}

theorem DemandEnvelope.allParts_iff {P : Part → Prop} : AllParts P value.parts ↔
    (∀ a ∈ value.applications, AllParts P a.parts) ∧ (∀ b ∈ value.bodies, AllParts P b.parts) ∧
      ∀ c ∈ value.requirements, AllParts P c.parts := by
  simp [parts]

section Notes

variable {cancel : CancellationToken} {previous candidate : DemandEnvelope}

theorem noteDefinition_sees (id : DefinitionId) : Sees Prod.fst (noteDefinition cancel id) [.id id] := by
  intro s s' a hrun
  obtain ⟨references, budget⟩ := s
  obtain ⟨⟨⟨_, charge⟩, t⟩, hvis, hset⟩ := bind_ok.mp hrun
  obtain ⟨-, rfl⟩ := Prod.mk.inj (Except.ok.inj hset)
  refine ⟨fun i => ?_, by simp [Part.Limited]⟩
  show i ∈ (if id ∈ references then references else references ++ [id]) ↔ _
  split
  · simp
    grind
  · simp

theorem noteDefinitions_sees : Sees Prod.fst (noteDefinitions cancel previous candidate)
    (previous.parts ++ candidate.parts) :=
  Collects.bind (previous.visit_sees noteDefinition_sees) fun _ => candidate.visit_sees noteDefinition_sees

/-- A token that is set stops the visit at its first check. -/
theorem noteDefinitions_cancelled {s s' : List DefinitionId × Budget} {a : PUnit}
    (h : (noteDefinitions cancel previous candidate).run s = .ok (a, s')) : cancel = false := by
  cases cancel with
  | false => rfl
  | true => cases h

end Notes

section Results

variable {K : Type} [DecidableEq K] {serializer : Serializer K} {cancel : CancellationToken}
  {encoding : DefinitionEncoding} {previous candidate : DemandEnvelope}

/-- Where the token is not set, and every part can be encoded, only a limit stops the loops. -/
theorem unionWith_outcome (hinj : serializer.Injective)
    (hp : AllParts (Part.Good encoding false fun e => UpdateError.ofMapping e = .limitExceeded) previous.parts)
    (hc : AllParts (Part.Good encoding false fun e => UpdateError.ofMapping e = .limitExceeded) candidate.parts) :
    Ensures (unionWith serializer false encoding previous candidate) (· = previous.union candidate) ∧
      Fails (unionWith serializer false encoding previous candidate) (· = .limitExceeded) := by
  obtain ⟨happ, hbody, hcall⟩ := DemandEnvelope.allParts_iff.mp hp
  obtain ⟨happ', hbody', hcall'⟩ := DemandEnvelope.allParts_iff.mp hc
  have happs := forall_mem_append.mpr ⟨happ, happ'⟩
  have hbodies := forall_mem_append.mpr ⟨hbody, hbody'⟩
  have hcalls := forall_mem_append.mpr ⟨hcall, hcall'⟩
  let E : UpdateError → Prop := (· = .limitExceeded)
  have hset : false = true → E .cancelled := by simp
  have hcharged {α : Type} {m : Charged false α} : Fails (charged m) E := (charged_stops hset rfl).fails
  refine outcome_bind (retainLoop_outcome (fun a b ha hb => charged_reveals hset rfl
      (BodyApplication.key_tellsApart hset rfl hinj a b (happs a ha) (happs b hb))) fun _ _ => hcharged) ?_
  rintro applications rfl
  refine outcome_bind (retainLoop_outcome (fun a b ha hb => charged_reveals hset rfl
      (BodyRequirement.key_tellsApart hset rfl hinj a b (hbodies a ha) (hbodies b hb))) fun _ _ => .pure) ?_
  rintro bodies rfl
  refine outcome_bind (retainLoop_outcome (fun a b ha hb => charged_reveals hset rfl
      (CallRequirement.key_tellsApart hset rfl hinj a b (hcalls a ha) (hcalls b hb))) fun _ _ => .pure) ?_
  rintro requirements rfl
  exact ⟨.pure rfl, .pure⟩

/-- A merge of envelopes over a valid table returns their union, or stops at a limit or a set token. -/
theorem unionDemands_outcome (hinj : serializer.Injective) {t : DefinitionTable} (ht : t.data.Valid)
    {order : List Nat → List Nat} (horder : ∀ l, (order l).Perm l) {iteration : List DefinitionId → List DefinitionId}
    (hiteration : ∀ l, (iteration l).Perm l) (hp : previous.Over t) (hc : candidate.Over t) (budget : Budget) :
    ∃ outcome, (unionDemands serializer cancel order iteration t previous candidate budget).run = some outcome ∧
      (∀ e, outcome = .error e → e = .limitExceeded ∨ e = .cancelled ∧ cancel = true) ∧
      ∀ result budget', outcome = .ok (result, budget') → result = previous.union candidate := by
  cases hnotes : (noteDefinitions cancel previous candidate).run ([], budget) with
  | error stopped =>
    refine ⟨.error (.ofMapping stopped.mapping), ?_, ?_, nofun⟩
    · unfold unionDemands
      rw [hnotes]
      rfl
    · rintro e heq
      rw [← Except.error.inj heq]
      cases stopped with
      | cancelled hset => exact .inr ⟨rfl, hset⟩
      | limitExceeded => exact .inl rfl
  | ok out =>
    obtain ⟨_, references, budget'⟩ := out
    obtain rfl := noteDefinitions_cancelled hnotes
    obtain ⟨hseen, hlims⟩ := noteDefinitions_sees _ _ _ hnotes
    have hord := allParts_append.mpr ⟨hp.ordered, hc.ordered⟩
    have hkn := forall_mem_append.mpr ⟨hp.known, hc.known⟩
    have hids : ∀ id ∈ iteration references, validateId t.id t.data id = .ok () := by
      intro id hid
      rcases (hseen id).mp ((hiteration references).mem_iff.mp hid) with hid | ⟨part, hpart, hid⟩
      · cases hid
      · exact hkn part hpart id hid
    obtain ⟨entries, he, henc⟩ := encode_ok ht order horder hids
    have hroom : t.data.nodes.length < 2 ^ 32 :=
      lt_of_le_of_lt ht.core.limit (by decide)
    obtain ⟨encoding, hview⟩ := encodingView_ok he hroom (canonicalTable (entries.map Prod.fst))
    have href : ∀ id ∈ iteration references, ∃ r, encoding.reference id = .ok r := fun id hid => by
      obtain ⟨k, hk⟩ := List.mem_iff_getElem?.mp (he.index id hid)
      have hok := (he.reference rfl).mpr ⟨(validateId_ok.mp (hids id hid)).1, hk⟩
      exact ⟨portableRef k, by rw [reference_of_view hview, hok]; rfl⟩
    have hgood : AllParts (Part.Good encoding false fun e => UpdateError.ofMapping e = .limitExceeded)
        (previous.parts ++ candidate.parts) := by
      intro part hpart
      refine Part.good_of_known (hord part hpart) (hlims part hpart) fun id hid => href id ?_
      exact (hiteration references).mem_iff.mpr ((hseen id).mpr (.inr ⟨part, hpart, hid⟩))
    obtain ⟨hgood, hgood'⟩ := allParts_append.mp hgood
    obtain ⟨hret, hfails⟩ := unionWith_outcome hinj hgood hgood'
    refine ⟨(unionWith serializer false encoding previous candidate).run budget', ?_, ?_, ?_⟩
    · unfold unionDemands
      rw [hnotes]
      show (ExceptT.run do
        let encoding ← ExceptT.mk (((t.encode order (iteration references)).run).map
          (·.mapError fun e => UpdateError.ofMapping (.identity e)))
        let encoding ← ExceptT.lift (encodingView encoding)
        ExceptT.mk (some ((unionWith serializer false encoding previous candidate).run budget'))) = _
      rw [henc]
      show (ExceptT.run do
        let encoding ← ExceptT.lift (encodingView _)
        ExceptT.mk (some ((unionWith serializer false encoding previous candidate).run budget'))) = _
      rw [hview]
      rfl
    · exact fun e he => .inl (hfails _ _ he)
    · exact fun result _ hok => hret _ _ _ hok

end Results

/-! ## Histories -/

variable {t : DefinitionTable}

theorem DemandEnvelope.over_iff : value.Over t ↔
    AllParts (fun part => part.Ordered ∧ ∀ id ∈ part.definitions, validateId t.id t.data id = .ok ()) value.parts :=
  ⟨fun h part hpart => ⟨h.ordered part hpart, h.known part hpart⟩,
    fun h => ⟨fun part hpart => (h part hpart).1, fun part hpart => (h part hpart).2⟩⟩

theorem DemandEnvelope.Over.union {previous candidate : DemandEnvelope} (hp : previous.Over t)
    (hc : candidate.Over t) : (previous.union candidate).Over t := by
  obtain ⟨happ, hbody, hcall⟩ := allParts_iff.mp (over_iff.mp hp)
  obtain ⟨happ', hbody', hcall'⟩ := allParts_iff.mp (over_iff.mp hc)
  have h := isUnion_union previous candidate
  refine over_iff.mpr (allParts_iff.mpr ⟨fun a ha => ?_, fun b hb => ?_, fun c hc => ?_⟩)
  · exact ((h.applications a).mp ha).elim (happ a) (happ' a)
  · exact ((h.bodies b).mp hb).elim (hbody b) (hbody' b)
  · exact ((h.requirements c).mp hc).elim (hcall c) (hcall' c)

theorem DemandEnvelope.over_empty : ({} : DemandEnvelope).Over t := ⟨nofun, nofun⟩

section History

variable {K : Type} [DecidableEq K]

/-- Some merge of the two returns this envelope, whatever its budget and the orders of its hash sets. -/
def Merges (serializer : Serializer K) (t : DefinitionTable) (previous candidate result : DemandEnvelope) : Prop :=
  ∃ cancel order iteration budget budget', (∀ l, (order l).Perm l) ∧ (∀ l, (iteration l).Perm l) ∧
    (unionDemands serializer cancel order iteration t previous candidate budget).run = some (.ok (result, budget'))

variable {serializer : Serializer K} (hinj : serializer.Injective)

include hinj

theorem Merges.eq_union (ht : t.data.Valid) {previous candidate result : DemandEnvelope}
    (hp : previous.Over t) (hc : candidate.Over t) (h : Merges serializer t previous candidate result) :
    result = previous.union candidate := by
  obtain ⟨cancel, order, iteration, budget, budget', horder, hiteration, hrun⟩ := h
  obtain ⟨outcome, hout, -, hres⟩ :=
    @unionDemands_outcome _ _ _ cancel _ _ hinj _ ht _ horder _ hiteration hp hc budget
  exact hres result budget' (Option.some.inj (hout.symm.trans hrun))

/-- Merging demand history, over any table: nothing is lost or doubled, merges of the same envelopes agree
however they are grouped, and keys are equal exactly where the records are, in any encoding. -/
theorem demandHistory (calls : List Call) : ∀ t ∈ (Process.start.run calls).tables,
    -- a merge returns the union, unless a limit is exceeded or the token is set
    (∀ previous candidate : DemandEnvelope, previous.Over t → candidate.Over t →
      ∀ cancel order iteration budget, (∀ l, (order l).Perm l) → (∀ l, (iteration l).Perm l) →
      ∃ outcome, (unionDemands serializer cancel order iteration t previous candidate budget).run = some outcome ∧
        (∀ e, outcome = .error e → e = .limitExceeded ∨ e = .cancelled ∧ cancel = true) ∧
        ∀ result budget', outcome = .ok (result, budget') →
          result.IsUnion previous candidate ∧ result.DuplicateFree) ∧
    -- it is idempotent
    (∀ value result : DemandEnvelope, value.Over t → Merges serializer t value value result →
      (value.DuplicateFree → result = value) ∧
      ∀ again, Merges serializer t result result again → again = result) ∧
    -- it is associative
    (∀ first second third left result right result' : DemandEnvelope, first.Over t → second.Over t → third.Over t →
      Merges serializer t first second left → Merges serializer t left third result →
      Merges serializer t second third right → Merges serializer t first right result' → result = result') ∧
    -- the empty envelope is a unit
    (∀ value result : DemandEnvelope, value.Over t → value.DuplicateFree →
      Merges serializer t value {} result ∨ Merges serializer t {} value result → result = value) ∧
    -- it is commutative, up to the order
    (∀ previous candidate result result' : DemandEnvelope, previous.Over t → candidate.Over t →
      Merges serializer t previous candidate result → Merges serializer t candidate previous result' →
      result.Reordered result') ∧
    -- keys tell records apart
    ∀ encoding cancel,
      (∀ a b : BodyApplication, AllParts Part.Ordered a.parts → AllParts Part.Ordered b.parts → ∀ k k',
        Returns (a.key serializer encoding cancel) k → Returns (b.key serializer encoding cancel) k' →
        (k = k' ↔ a = b)) ∧
      (∀ a b : BodyRequirement, AllParts Part.Ordered a.parts → AllParts Part.Ordered b.parts → ∀ k k',
        Returns (a.key serializer encoding cancel) k → Returns (b.key serializer encoding cancel) k' →
        (k = k' ↔ a = b)) ∧
      ∀ a b : CallRequirement, AllParts Part.Ordered a.parts → AllParts Part.Ordered b.parts → ∀ k k',
        Returns (a.key serializer encoding cancel) k → Returns (b.key serializer encoding cancel) k' →
        (k = k' ↔ a = b) := by
  intro t ht
  obtain ⟨hproc, -⟩ := Process.consistent_start.run calls
  obtain ⟨hvld, -⟩ := hproc.tables t ht
  have hmrg {previous candidate result : DemandEnvelope} (hp : previous.Over t) (hc : candidate.Over t)
      (h : Merges serializer t previous candidate result) : result = previous.union candidate :=
    h.eq_union hinj hvld hp hc
  refine ⟨?_, ?_, ?_, ?_, ?_, ?_⟩
  · intro previous candidate hp hc cancel order iteration budget horder hiteration
    obtain ⟨outcome, hrun, herr, hok⟩ := unionDemands_outcome hinj hvld horder hiteration hp hc budget
    refine ⟨outcome, hrun, herr, fun result budget' hres => ?_⟩
    rw [hok result budget' hres]
    exact ⟨DemandEnvelope.isUnion_union _ _, DemandEnvelope.duplicateFree_union _ _⟩
  · intro value result hv h
    obtain rfl := hmrg hv hv h
    have hself {e : DemandEnvelope} (hfree : e.DuplicateFree) : e.union e = e := by
      rw [DemandEnvelope.union_self, DemandEnvelope.union_empty hfree]
    exact ⟨hself, fun again h => (hmrg (hv.union hv) (hv.union hv) h).trans
      (hself (DemandEnvelope.duplicateFree_union _ _))⟩
  · intro first second third left result right result' h₁ h₂ h₃ hleft hres hrt hres'
    obtain rfl := hmrg h₁ h₂ hleft
    obtain rfl := hmrg h₂ h₃ hrt
    rw [hmrg (h₁.union h₂) h₃ hres, hmrg h₁ (h₂.union h₃) hres', DemandEnvelope.union_assoc]
  · intro value result hv hfree h
    rcases h with h | h
    · rw [hmrg hv DemandEnvelope.over_empty h, DemandEnvelope.union_empty hfree]
    · rw [hmrg DemandEnvelope.over_empty hv h, DemandEnvelope.empty_union hfree]
  · intro previous candidate result result' hp hc h h'
    rw [hmrg hp hc h, hmrg hc hp h']
    exact DemandEnvelope.union_comm _ _
  · intro encoding cancel
    let E : UpdateError → Prop := fun _ => True
    have hset : cancel = true → E .cancelled := fun _ => trivial
    have hgood {parts : List Part} (h : AllParts Part.Ordered parts) :
        AllParts (Part.Good encoding cancel fun _ => True) parts :=
      fun part hpart => Part.good_of_ordered (h part hpart)
    refine ⟨fun a b ha hb => ?_, fun a b ha hb => ?_, fun a b ha hb => ?_⟩
    · exact (BodyApplication.key_tellsApart (E := E) hset trivial hinj a b (hgood ha) (hgood hb)).iff trivial
    · exact (BodyRequirement.key_tellsApart (E := E) hset trivial hinj a b (hgood ha) (hgood hb)).iff trivial
    · exact (CallRequirement.key_tellsApart (E := E) hset trivial hinj a b (hgood ha) (hgood hb)).iff trivial

end History

/-- The publication before an update. -/
def previousDemands : DemandEnvelope where
  applications := [⟨⟨⟨1, 3⟩, []⟩, []⟩]
  bodies := [⟨⟨⟨1, 3⟩, []⟩, none, [.direct ⟨⟨1, 2⟩, [.builtin .i32]⟩]⟩]
  requirements := [.unknown .functionValue, .layout (.builtin .i32)]

/-- The publication of the update, with a second version of the same body. -/
def candidateDemands : DemandEnvelope where
  applications := [⟨⟨⟨1, 2⟩, [.builtin .i32]⟩, []⟩, ⟨⟨⟨1, 3⟩, []⟩, []⟩]
  bodies := [⟨⟨⟨1, 3⟩, []⟩, none, []⟩, ⟨⟨⟨1, 3⟩, []⟩, none, [.direct ⟨⟨1, 2⟩, [.builtin .i32]⟩]⟩]
  requirements := [.direct ⟨⟨1, 2⟩, [.builtin .i32]⟩, .unknown .functionValue]

theorem demands_over (h : validateId t.id t.data ⟨1, 2⟩ = .ok ())
    (h' : validateId t.id t.data ⟨1, 3⟩ = .ok ()) : previousDemands.Over t ∧ candidateDemands.Over t := by
  constructor <;> refine ⟨?_, ?_⟩ <;>
    simp [previousDemands, candidateDemands, DemandEnvelope.parts, BodyApplication.parts, BodyRequirement.parts,
      CallRequirement.parts, ConcreteFunctionIdentity.parts, Part.Ordered, Ty.Ordered, Ty.definitions, h, h']

/-- Both versions of the body are kept, and each of the records that are in both publications once. -/
theorem demandHistory_versions : ∃ t result budget, t ∈ (Process.start.run sharedField).tables ∧
    (unionDemands bincode false id id t previousDemands candidateDemands ⟨⟨1000, 1000, 1000, 10⟩, []⟩).run =
      some (.ok (result, budget)) ∧
    result.IsUnion previousDemands candidateDemands ∧ result.DuplicateFree ∧
    (result.applications.length, result.bodies.length, result.requirements.length) = (2, 2, 3) := by
  have hrun : (do
      let t ← (Process.start.run sharedField).tables[0]?
      let outcome ← (unionDemands bincode false id id t previousDemands candidateDemands
        ⟨⟨1000, 1000, 1000, 10⟩, []⟩).run
      return ((validateId t.id t.data ⟨1, 2⟩).toOption, (validateId t.id t.data ⟨1, 3⟩).toOption,
        outcome.toOption.map fun r => (r.1.applications.length, r.1.bodies.length, r.1.requirements.length))) =
      some (some (), some (), some (2, 2, 3)) := by
    decide +kernel
  obtain ⟨t, ht, hrun⟩ := Option.bind_eq_some_iff.mp hrun
  obtain ⟨outcome, houtc, hrun⟩ := Option.bind_eq_some_iff.mp hrun
  obtain ⟨hplayer, hrest⟩ := Prod.mk.inj (Option.some.inj hrun)
  obtain ⟨hfld, hlens⟩ := Prod.mk.inj hrest
  have hmem := List.mem_of_getElem? ht
  obtain ⟨hprev, hcand⟩ := demands_over (ok_of_toOption hplayer) (ok_of_toOption hfld)
  obtain ⟨hmrg, -⟩ := demandHistory bincode_injective sharedField t hmem
  obtain ⟨outcome', houtc', -, hok⟩ := hmrg previousDemands candidateDemands hprev hcand false id id
    ⟨⟨1000, 1000, 1000, 10⟩, []⟩ (fun l => .refl l) (fun l => .refl l)
  obtain rfl := Option.some.inj (houtc'.symm.trans houtc)
  cases outcome' with
  | error e => cases hlens
  | ok out =>
    obtain ⟨result, budget⟩ := out
    obtain ⟨hunion, hfree⟩ := hok result budget rfl
    exact ⟨t, result, budget, hmem, houtc, hunion, hfree, Option.some.inj hlens⟩

/-! ## Retained history -/

section Reloads

variable {K : Type} [DecidableEq K] {serializer : Serializer K} {t : DefinitionTable}
  {publications publications' : List DemandEnvelope} {history history' : DemandEnvelope}

/-- The history that a run of merges over one table retains, from the empty envelope. -/
inductive Retains (serializer : Serializer K) (t : DefinitionTable) : List DemandEnvelope → DemandEnvelope → Prop
  | initial : Retains serializer t [] {}
  | update {publications : List DemandEnvelope} {history published next : DemandEnvelope} :
    Retains serializer t publications history → Merges serializer t history published next →
      Retains serializer t (publications ++ [published]) next

/-- The first occurrences of the records of all. -/
noncomputable def DemandEnvelope.unions (publications : List DemandEnvelope) : DemandEnvelope where
  applications := (publications.flatMap (·.applications)).eraseDups
  bodies := (publications.flatMap (·.bodies)).eraseDups
  requirements := (publications.flatMap (·.requirements)).eraseDups

theorem Retains.eq_unions (hinj : serializer.Injective) (ht : t.data.Valid)
    (h : Retains serializer t publications history) (hover : ∀ p ∈ publications, p.Over t) :
    history = .unions publications ∧ history.Over t := by
  induction h with
  | initial => exact ⟨rfl, DemandEnvelope.over_empty⟩
  | @update publications history published next _ h ih =>
    obtain ⟨hp, hlast⟩ := forall_mem_append.mp hover
    obtain ⟨rfl, hhist⟩ := ih hp
    have hlast := hlast published (mem_singleton_self _)
    obtain rfl := h.eq_union hinj ht hhist hlast
    exact ⟨by simp [DemandEnvelope.union, DemandEnvelope.unions, eraseDups_append_left], hhist.union hlast⟩

theorem eraseDups_flatMap_grows {α β : Type} [BEq β] [LawfulBEq β] (f : α → List β) (l more : List α) :
    (l.flatMap f).eraseDups <+: ((l ++ more).flatMap f).eraseDups := by
  rw [flatMap_append, eraseDups_append]
  exact prefix_append _ _

theorem eraseDups_flatMap_perm {α β : Type} [BEq β] [LawfulBEq β] (f : α → List β) {l l' : List α}
    (h : ∀ a, a ∈ l ↔ a ∈ l') : (l.flatMap f).eraseDups.Perm (l'.flatMap f).eraseDups :=
  (perm_ext_iff_of_nodup (nodup_eraseDups _) (nodup_eraseDups _)).mpr (by simp [mem_eraseDups, h])

/-- The retained history holds each record of each publication once, in the order of their first publication;
later merges only append to it, and other orders and repetitions of the same publications retain the same
records. -/
theorem retains_history (hinjective : serializer.Injective) (calls : List Call) :
    ∀ t ∈ (Process.start.run calls).tables, ∀ publications history, (∀ p ∈ publications, p.Over t) →
      Retains serializer t publications history → history = .unions publications ∧
      (∀ more history', (∀ p ∈ more, p.Over t) → Retains serializer t (publications ++ more) history' →
        history.applications <+: history'.applications ∧ history.bodies <+: history'.bodies ∧
          history.requirements <+: history'.requirements) ∧
      ∀ publications' history', (∀ p, p ∈ publications ↔ p ∈ publications') →
        Retains serializer t publications' history' → history.Reordered history' := by
  intro t ht publications history hover h
  obtain ⟨hproc, -⟩ := Process.consistent_start.run calls
  obtain ⟨hvld, -⟩ := hproc.tables t ht
  obtain ⟨rfl, -⟩ := h.eq_unions hinjective hvld hover
  refine ⟨rfl, fun more history' hmore h' => ?_, fun publications' history' hsame h' => ?_⟩
  · obtain ⟨rfl, -⟩ := h'.eq_unions hinjective hvld (List.forall_mem_append.mpr ⟨hover, hmore⟩)
    exact ⟨eraseDups_flatMap_grows _ _ _, eraseDups_flatMap_grows _ _ _, eraseDups_flatMap_grows _ _ _⟩
  · obtain ⟨rfl, -⟩ := h'.eq_unions hinjective hvld fun p hp => hover p ((hsame p).mpr hp)
    exact ⟨eraseDups_flatMap_perm _ hsame, eraseDups_flatMap_perm _ hsame, eraseDups_flatMap_perm _ hsame⟩

end Reloads

/-- A merge within a small budget, its hash sets iterated in order. -/
def merged (t : DefinitionTable) (previous candidate : DemandEnvelope) : Option DemandEnvelope := do
  let outcome ← (unionDemands bincode false id id t previous candidate ⟨⟨1000, 1000, 1000, 10⟩, []⟩).run
  let (result, _) ← outcome.toOption
  return result

theorem Retains.merged {publications : List DemandEnvelope} {history published next : DemandEnvelope}
    (h : Retains bincode t publications history) (hrun : merged t history published = some next) :
    Retains bincode t (publications ++ [published]) next := by
  obtain ⟨outcome, hmrg, hrun⟩ := Option.bind_eq_some_iff.mp hrun
  obtain ⟨⟨result, budget⟩, hok, hrun⟩ := Option.bind_eq_some_iff.mp hrun
  obtain rfl := ok_of_toOption hok
  cases hrun
  exact .update h ⟨false, id, id, _, _, fun _ => .refl _, fun _ => .refl _, hmrg⟩

/-- Two versions merged one after the other. The second appends what is new in it; in the other order, and once
more, they retain the same records. -/
theorem retains_history_published : ∃ t first history again, t ∈ (Process.start.run sharedField).tables ∧
    Retains bincode t [previousDemands] first ∧ Retains bincode t [previousDemands, candidateDemands] history ∧
    Retains bincode t [candidateDemands, previousDemands, candidateDemands] again ∧
    history = .unions [previousDemands, candidateDemands] ∧ (first.applications <+: history.applications ∧
      first.bodies <+: history.bodies ∧ first.requirements <+: history.requirements) ∧
    history.Reordered again ∧ (first.applications.length, history.applications.length) = (1, 2) := by
  have hrun : (do
      let t ← (Process.start.run sharedField).tables[0]?
      let first ← merged t {} previousDemands
      let history ← merged t first candidateDemands
      let candidate ← merged t {} candidateDemands
      let swapped ← merged t candidate previousDemands
      let again ← merged t swapped candidateDemands
      return ((validateId t.id t.data ⟨1, 2⟩).toOption, (validateId t.id t.data ⟨1, 3⟩).toOption,
        (first.applications.length, history.applications.length), again.applications.length)) =
      some (some (), some (), (1, 2), 2) := by
    decide +kernel
  obtain ⟨t, ht, hrun⟩ := Option.bind_eq_some_iff.mp hrun
  obtain ⟨first, hfirst, hrun⟩ := Option.bind_eq_some_iff.mp hrun
  obtain ⟨history, hhist, hrun⟩ := Option.bind_eq_some_iff.mp hrun
  obtain ⟨candidate, hcand, hrun⟩ := Option.bind_eq_some_iff.mp hrun
  obtain ⟨swapped, hswap, hrun⟩ := Option.bind_eq_some_iff.mp hrun
  obtain ⟨again, hagain, hrun⟩ := Option.bind_eq_some_iff.mp hrun
  obtain ⟨hplayer, hrest⟩ := Prod.mk.inj (Option.some.inj hrun)
  obtain ⟨hfld, hrest⟩ := Prod.mk.inj hrest
  obtain ⟨hp, hc⟩ := demands_over (ok_of_toOption hplayer) (ok_of_toOption hfld)
  have hmem := List.mem_of_getElem? ht
  have hone := Retains.initial.merged hfirst
  have htwo := hone.merged hhist
  have hthree := ((Retains.initial.merged hcand).merged hswap).merged hagain
  have hover : ∀ p ∈ [previousDemands, candidateDemands], p.Over t := by simp [hp, hc]
  obtain ⟨-, hgr, -⟩ := retains_history bincode_injective sharedField t hmem _ _ (by simpa using hp) hone
  obtain ⟨hunions, -, hsame⟩ := retains_history bincode_injective sharedField t hmem _ _ hover htwo
  exact ⟨t, first, history, again, hmem, hone, htwo, hthree, hunions,
    hgr [candidateDemands] history (by simpa using hc) htwo, hsame _ again (by simp) hthree,
    (Prod.mk.inj hrest).1⟩

end Kagari.Updates
