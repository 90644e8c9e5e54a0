import Kagari.Identity.PortableSound
import Kagari.Types.WireRoundTrip

/-!
# Types over portable tables

The references of a portable table as the type codec sees them: each a `u32` of its own. So types that
are written over the encoding of a table are read over its decoding.
-/

namespace Kagari

open Lib Identity

/-- The cast `as u32`. -/
def portableRef (index : Nat) : PortableDefinitionRef := ⟨index % 2 ^ 32, Nat.mod_lt _ (Nat.two_pow_pos _)⟩

/-- The references of an encoded table. -/
def encodingView (encoding : Encoding) : Option DefinitionEncoding :=
  let references := encoding.references.map fun entry => (entry.1, portableRef entry.2)
  if h : (references.map Prod.fst).Nodup ∧ (references.map Prod.snd).Nodup then
    some ⟨encoding.owner, references, h.1, h.2⟩
  else none

/-- The identities of a decoded table. -/
def decodingView (decoding : Decoding) : Option DefinitionDecoding :=
  if h : decoding.references.Nodup then some ⟨decoding.references, h⟩ else none

variable {t : DefinitionTable} {ids : List DefinitionId} {entries : List (DefinitionPath × Nat)}

theorem reference_of_view {encoding : Encoding} {view : DefinitionEncoding}
    (h : encodingView encoding = some view) (id : DefinitionId) :
    view.reference id = (encoding.reference id).map portableRef := by
  obtain ⟨_, hview⟩ := Option.dite_none_right_eq_some.mp h
  cases hview
  unfold DefinitionEncoding.reference Encoding.reference
  by_cases howner : id.table = encoding.owner
  · rw [if_neg (not_not.mpr howner), if_neg (not_not.mpr howner)]
    dsimp only
    have hlook : ∀ entries : List (Nat × Nat),
        (entries.map fun entry => (entry.1, portableRef entry.2)).lookup id.index =
          (entries.lookup id.index).map portableRef := by
      intro entries
      induction entries with
      | nil => rfl
      | cons entry entries ih =>
        rw [List.map_cons, List.lookup_cons, List.lookup_cons, ih]
        cases id.index == entry.1 <;> rfl
    rw [hlook]
    cases encoding.references.lookup id.index <;> rfl
  · rw [if_pos howner, if_pos howner]
    rfl

theorem resolve_of_view {decoding : Decoding} {view : DefinitionDecoding} (h : decodingView decoding = some view)
    {index : Nat} (hlim : index < 2 ^ 32) : view.resolve (portableRef index) = decoding.resolve index := by
  obtain ⟨_, hview⟩ := Option.dite_none_right_eq_some.mp h
  cases hview
  exact congrArg decoding.resolve (Nat.mod_eq_of_lt hlim)

/-- The references of an encoding are the numbers below its length, so they are all different. -/
theorem encodingView_ok (he : EncodingOf t ids entries) (hlim : t.data.nodes.length < 2 ^ 32)
    (table : PortableDefinitionTable) :
    ∃ view, encodingView ⟨table, t.id, (entries.map Prod.snd).zipIdx⟩ = some view := by
  have hlen : (entries.map Prod.snd).length < 2 ^ 32 := by
    have := he.length
    rw [List.length_map] at this ⊢
    omega
  refine ⟨_, dif_pos ⟨?_, ?_⟩⟩
  · rw [List.map_map]
    exact (List.zipIdx_map_fst 0 (entries.map Prod.snd)).symm ▸ he.ordered.nodup
  · have hmap : ((entries.map Prod.snd).zipIdx.map fun entry => (entry.1, portableRef entry.2)).map Prod.snd =
        (List.range (entries.map Prod.snd).length).map portableRef := by
      rw [List.map_map, List.range_eq_range', ← List.zipIdx_map_snd 0 (entries.map Prod.snd), List.map_map]
      rfl
    rw [hmap]
    refine List.Nodup.map_on (fun i hi j hj heq => ?_) List.nodup_range
    have hi := List.mem_range.mp hi
    have hj := List.mem_range.mp hj
    have hval := congrArg Fin.val heq
    simp only [portableRef] at hval
    omega

/-- Definitions with different paths are different. -/
theorem nodup_of_means {table : Nat} {d : TableData} {references : List DefinitionId} {paths : List DefinitionPath}
    (h : List.Forall₂ (Means table d) references paths) (hpaths : paths.Nodup) : references.Nodup := by
  induction h with
  | nil => exact .nil
  | @cons id path references paths hone h ih =>
    obtain ⟨hnew, hpaths⟩ := List.nodup_cons.mp hpaths
    refine List.nodup_cons.mpr ⟨fun hmem => hnew ?_, ih hpaths⟩
    obtain ⟨k, hk⟩ := List.mem_iff_getElem?.mp hmem
    obtain ⟨path', hk', hsame⟩ := get_of_forall₂ h.flip hk
    rw [hone.2.functional hsame.2]
    exact List.mem_of_getElem? hk'

/-- A reference is the position of the definition's path in the encoding and in its decoding. -/
theorem position_of_reference (ht : t.data.Valid) (he : EncodingOf t ids entries) {encoding : Encoding}
    (hencoding : encoding = ⟨canonicalTable (entries.map Prod.fst), t.id, (entries.map Prod.snd).zipIdx⟩)
    {decoding : Decoding} (hd : decoding.table.data.Valid)
    (hall : List.Forall₂ (Means decoding.table.id decoding.table.data) decoding.references (entries.map Prod.fst))
    {id : DefinitionId} {k : Nat} (hk : encoding.reference id = .ok k) :
    k < 2 ^ 32 ∧ ∃ id' path, decoding.references[k]? = some id' ∧ t.resolve id = .ok (some path) ∧
      decoding.table.resolve id' = .ok (some path) := by
  obtain ⟨htab, hget⟩ := (he.reference hencoding).mp hk
  rw [List.getElem?_map] at hget
  obtain ⟨⟨path, index⟩, hent, rfl⟩ := Option.map_eq_some_iff.mp hget
  obtain ⟨id', hid', hmn⟩ := get_of_forall₂ hall (by rw [List.getElem?_map, hent]; rfl)
  have hlt := (List.getElem?_eq_some_iff.mp hent).1
  have hlen := he.length
  rw [List.length_map] at hlen
  exact ⟨hlt.trans_le (hlen.trans (ht.core.limit.trans (by decide))), id', path, hid',
    (DefinitionTable.resolve_iff ht).mpr ⟨htab, he.ordered.path _ (List.mem_of_getElem? hent)⟩,
    (DefinitionTable.resolve_iff hd).mpr hmn⟩

/-- Types over the definitions of a table of any process are written over the portable table of these
definitions, and read over its decoding as the types of the definitions with the same paths. -/
theorem portable_types (calls : List Call) (order : List Nat → List Nat) (horder : ∀ l, (order l).Perm l) :
    ∀ t ∈ (Process.start.run calls).tables, ∀ ids : List DefinitionId,
    (∀ id ∈ ids, validateId t.id t.data id = .ok ()) → ∀ next, next + 1 < 2 ^ 32 →
    ∃ encoding decoding view read, (t.encode order ids).run = some (.ok encoding) ∧
      encoding.table.decode next = .ok decoding ∧
      encodingView encoding = some view ∧ decodingView decoding = some read ∧
      ∃ ι, TablesRelated view read ι ∧
        (∀ id ∈ ids, ∃ path, t.resolve id = .ok (some path) ∧ decoding.table.resolve (ι id) = .ok (some path)) ∧
        ∀ ty : Ty, ty.Ordered → ty.withinWireLimits = true → (∀ id ∈ ty.definitions, id ∈ ids) →
          ∃ wire, WireType.encode ty view false = .ok wire ∧
            WireType.decode wire read false = .ok (ty.rename ι) := by
  intro t ht ids hids next hnext
  obtain ⟨hp, -⟩ := Process.consistent_start.run calls
  obtain ⟨hvld, -⟩ := hp.tables t ht
  obtain ⟨entries, he, henc⟩ := encode_ok hvld order horder hids
  obtain ⟨decoding, hdec, rfl, hd, hall⟩ := decode_ok hvld he.ordered.forest he.source he.length hnext
  obtain ⟨view, hview⟩ := encodingView_ok he (lt_of_le_of_lt hvld.core.limit (by decide))
    (canonicalTable (entries.map Prod.fst))
  have hnodup := nodup_of_means hall he.ordered.forest.sorted.nodup
  have hread : decodingView decoding = some ⟨_, hnodup⟩ := dif_pos hnodup
  generalize hencoding : (⟨canonicalTable (entries.map Prod.fst), t.id, (entries.map Prod.snd).zipIdx⟩ : Encoding) =
    encoding at henc hview
  have hknown : ∀ id ∈ ids, ∃ k, encoding.reference id = .ok k := by
    intro id hid
    obtain ⟨k, hk⟩ := List.mem_iff_getElem?.mp (he.index id hid)
    exact ⟨k, (he.reference hencoding.symm).mpr ⟨(validateId_ok.mp (hids id hid)).1, hk⟩⟩
  let ι (id : DefinitionId) : DefinitionId :=
    (encoding.reference id).toOption.elim id fun k => decoding.references[k]?.getD id
  have hrel : TablesRelated view ⟨decoding.references, hnodup⟩ ι := by
    intro id r hr
    rw [reference_of_view hview] at hr
    cases hk : encoding.reference id with
    | error e =>
      rw [hk] at hr
      cases hr
    | ok k =>
      rw [hk] at hr
      cases hr
      obtain ⟨hlt, id', path, hid', -⟩ := position_of_reference hvld he hencoding.symm hd hall hk
      rw [resolve_of_view hread hlt]
      simp [ι, hk, hid', Decoding.resolve, Except.toOption]
  refine ⟨encoding, decoding, view, _, henc, hencoding ▸ hdec, hview, hread, ι, hrel, fun id hid => ?_,
    fun ty ho hlims hdefs => ?_⟩
  · obtain ⟨k, hk⟩ := hknown id hid
    obtain ⟨-, id', path, hid', hpath, hpath'⟩ := position_of_reference hvld he hencoding.symm hd hall hk
    refine ⟨path, hpath, ?_⟩
    simpa [ι, hk, hid', Except.toOption] using hpath'
  · obtain ⟨wire, hwire⟩ := WireType.encode_of_limits ho hlims fun id hmem => by
      obtain ⟨k, hk⟩ := hknown id (hdefs id hmem)
      exact ⟨portableRef k, by rw [reference_of_view hview, hk]; rfl⟩
    exact ⟨wire, hwire, WireType.decode_encode hrel hwire⟩

end Kagari
