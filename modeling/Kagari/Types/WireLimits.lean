import Kagari.Types.WireRoundTrip

/-!
# The limits of shapes and of encodings

`shape::validate` bounds a type by recursion over its children; `wire_nodes_with` enters the same
budget from a stack, in the order of the table's references, and checks its stack on top. The two
accept the same types and count the same nodes. `Flat` is what both are compared with.
-/

namespace Kagari

open ShapeBudget

/-- The conversion of `WireType::encode`. -/
def DefinitionEncoding.convert (encoding : DefinitionEncoding) (id : DefinitionId) :
    Except IdentityTransformError PortableDefinitionRef :=
  liftTableError (encoding.reference id)

/-- A table that has a reference for every definition of the type. -/
def DefinitionEncoding.Knows (encoding : DefinitionEncoding) (ty : Ty) : Prop :=
  ∀ id ∈ ty.definitions, ∃ reference, encoding.reference id = .ok reference

variable {encoding : DefinitionEncoding}

theorem DefinitionEncoding.convert_injective (id id' : DefinitionId)
    (r : PortableDefinitionRef) (h : encoding.convert id = .ok r) (h' : encoding.convert id' = .ok r) :
    id = id' :=
  reference_injective (liftTableError_ok.mp h) (liftTableError_ok.mp h')

theorem validate_iff_visits {ty : Ty} {cancel : CancellationToken} :
    validate ty cancel = .ok () ↔ ∃ visited, visit cancel 0 ty 1 = .ok visited := by
  simp [validate, Lib.bind_ok, pure, Except.pure]

/-- A token that is set stops both before the first node. -/
theorem visit_cancelled (visited depth : Nat) (ty : Ty) :
    visit true visited ty depth = .error .cancelled := by
  rw [visit_eq]
  rfl

theorem wireNodesWith_cancelled {J : Type} [LinearOrder J]
    (convert : DefinitionId → Except IdentityTransformError J) (ty : Ty) :
    wireNodesWith convert true ty = .error (.type .cancelled) := rfl

/-- The nodes that are written are a flattening, and the traversal counts them. -/
theorem visit_of_wireNodes {convert : DefinitionId → Except IdentityTransformError PortableDefinitionRef}
    {ty : Ty} {nodes : List WireNode} (h : wireNodesWith convert false ty = .ok nodes) :
    visit false 0 ty 1 = .ok nodes.length := by
  have hbnd : nodes.length ≤ maxTypeNodes := wireLoop_bounded h (Nat.zero_le _)
  obtain ⟨nodes', hflat, heq⟩ := wireLoop_ok h
  rw [List.nil_append] at heq
  subst heq
  obtain ⟨n, rest, hlen, hrest, -, hvis⟩ := visit_of_flat ty hflat
  cases hrest
  simp only [List.length_nil, Nat.add_zero] at hlen
  subst hlen
  have := hvis 0 (by omega)
  rwa [Nat.zero_add] at this

/-- What the traversal accepts flattens, and the encoder writes the flattening. -/
theorem wireNodes_of_visit {ty : Ty} {visited : Nat} (ho : ty.Ordered)
    (hknows : encoding.Knows ty) (h : visit false 0 ty 1 = .ok visited) :
    ∃ nodes, wireNodesWith encoding.convert false ty = .ok nodes := by
  have hkn : ∀ id ∈ ty.definitions, ∃ r, encoding.convert id = .ok r := by
    intro id hid
    obtain ⟨r, hr⟩ := hknows id hid
    exact ⟨r, liftTableError_ok.mpr hr⟩
  obtain ⟨hvisited, n, rfl, nodes, rfl, hnds⟩ :=
    flatTy_of_visit DefinitionEncoding.convert_injective ty ho hkn h
  have hflat : Flat encoding.convert [(ty, 1)] nodes := by
    simpa using hnds [] [] .nil
  rw [Nat.zero_add] at hvisited
  exact ⟨nodes, wireLoop_of_flat hflat rfl (Nat.zero_add _) (by simpa using hvisited)⟩

/-- The two traversals agree: a type is within the shape limits exactly when it is encoded, and then
the traversal counts the nodes that are written. The bindings of a type are ordered by their keys, as
in every `BTreeMap`. -/
theorem validate_iff_encodes (encoding : DefinitionEncoding) (ty : Ty) (cancel : CancellationToken)
    (ho : ty.Ordered) (hknows : encoding.Knows ty) :
    (validate ty cancel = .ok () ↔ ∃ nodes, wireNodesWith encoding.convert cancel ty = .ok nodes) ∧
    ∀ nodes, wireNodesWith encoding.convert cancel ty = .ok nodes →
      visit cancel 0 ty 1 = .ok nodes.length := by
  cases cancel with
  | true => simp [validate_iff_visits, visit_cancelled, wireNodesWith_cancelled]
  | false =>
    refine ⟨?_, fun nodes h => visit_of_wireNodes h⟩
    rw [validate_iff_visits]
    constructor
    · rintro ⟨visited, h⟩
      exact wireNodes_of_visit ho hknows h
    · rintro ⟨nodes, h⟩
      exact ⟨nodes.length, visit_of_wireNodes h⟩

/-! A trait with two bindings, below a number of arrays. -/

namespace Nested

def ty : Nat → Ty
  | 0 => Swapped.ty
  | n + 1 => .array (ty n)

theorem ordered (n : Nat) : (ty n).Ordered := by
  induction n with
  | zero =>
    simp only [ty, Swapped.ty, Ty.Ordered, Ty.OrderedNominal, Ty.OrderedAll, Ty.OrderedBindings,
      Ty.OrderedBinding, Lib.SortedMap.Keyed, and_self, and_true, true_and]
    decide
  | succ n ih => exact ih

theorem knows (n : Nat) : Swapped.encoding.Knows (ty n) := by
  induction n with
  | zero =>
    intro id hid
    have hid' : id ∈ [(⟨1, 0⟩ : DefinitionId), ⟨1, 0⟩, ⟨1, 1⟩, ⟨1, 1⟩] := hid
    simp only [List.mem_cons, List.not_mem_nil, or_false] at hid'
    rcases hid' with rfl | rfl | rfl | rfl
    · exact ⟨0, rfl⟩
    · exact ⟨0, rfl⟩
    · exact ⟨1, rfl⟩
    · exact ⟨1, rfl⟩
  | succ n ih => exact ih

end Nested

/-- The deepest nesting that is encoded: its array element stands at depth 64. One array more is
encoded no longer. -/
theorem validate_iff_encodes_atDepth :
    (∃ nodes, wireNodesWith Swapped.encoding.convert false (Nested.ty 61) = .ok nodes ∧
      nodes.length = 66) ∧
    ¬ ∃ nodes, wireNodesWith Swapped.encoding.convert false (Nested.ty 62) = .ok nodes := by
  obtain ⟨hdeepest, hcnt⟩ := validate_iff_encodes Swapped.encoding (Nested.ty 61) false
    (Nested.ordered 61) (Nested.knows 61)
  obtain ⟨htooDeep, -⟩ := validate_iff_encodes Swapped.encoding (Nested.ty 62) false
    (Nested.ordered 62) (Nested.knows 62)
  constructor
  · obtain ⟨nodes, hnds⟩ := hdeepest.mp (by decide)
    have hvis : visit false 0 (Nested.ty 61) 1 = .ok 66 := by decide
    have heq := (hcnt nodes hnds).symm.trans hvis
    simp only [Except.ok.injEq] at heq
    exact ⟨nodes, hnds, heq⟩
  · rw [← htooDeep]
    decide

end Kagari
