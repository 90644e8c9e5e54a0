import Mathlib.Algebra.BigOperators.Ring.List
import Mathlib.Algebra.Order.BigOperators.Group.List
import Mathlib.Algebra.Order.Ring.Nat
import Kagari.Types.Substitution

/-!
# The budget of a substitution

The traversal of `apply` counts its own steps and depth, apart from the shape check of the result. The
steps never run out first: `apply` succeeds on exactly the types whose substitution is within the wire
limits (`TypeSubstitution.apply_iff`), so that two of them are one (`apply_apply`).
-/

namespace Kagari

open Lib List

/-! ## Nodes -/

mutual

/-- The number of nodes of a type. -/
def Ty.nodes : Ty → Nat
  | .projection as r i _ => 1 + (r.nodes + (Ty.nodesNominal i + Ty.nodesAll as))
  | .host _ => 1
  | .selfType _ => 1
  | .parameter _ _ => 1
  | .builtin _ => 1
  | .tuple ts => 1 + Ty.nodesAll ts
  | .function ps r => 1 + (Ty.nodesAll ps + r.nodes)
  | .iter t => 1 + t.nodes
  | .range t _ => 1 + t.nodes
  | .array t => 1 + t.nodes
  | .map k v _ => 1 + (k.nodes + v.nodes)
  | .set t _ => 1 + t.nodes
  | .struct n => 1 + Ty.nodesNominal n
  | .nativeObject n => 1 + Ty.nodesNominal n
  | .enum n => 1 + Ty.nodesNominal n
  | .trait n => 1 + Ty.nodesNominal n
  | .reference t _ => 1 + t.nodes

def Ty.nodesAll : List Ty → Nat
  | [] => 0
  | t :: ts => t.nodes + Ty.nodesAll ts

def Ty.nodesNominal : NominalTy → Nat
  | ⟨_, as, bs⟩ => Ty.nodesAll as + Ty.nodesBindings bs

def Ty.nodesBindings : List (DefinitionId × Ty) → Nat
  | [] => 0
  | b :: bs => Ty.nodesBinding b + Ty.nodesBindings bs

def Ty.nodesBinding : DefinitionId × Ty → Nat
  | (_, t) => t.nodes

end

variable (ts : List Ty) (ty : Ty) {depth : Nat} {types : List Ty} (f : Ty → Ty)

theorem Ty.nodesAll_eq : Ty.nodesAll ts = (ts.map Ty.nodes).sum := by
  induction ts with
  | nil => rfl
  | cons t ts ih => simp [Ty.nodesAll, ih]

theorem Ty.nodesNominal_eq (n : NominalTy) : Ty.nodesNominal n = (n.kids.map Ty.nodes).sum := by
  have hbnds : ∀ bs, Ty.nodesBindings bs = ((bs.map Prod.snd).map Ty.nodes).sum := by
    intro bs
    induction bs with
    | nil => rfl
    | cons b bs ih =>
      obtain ⟨id, t⟩ := b
      simp [Ty.nodesBindings, Ty.nodesBinding, ih]
  obtain ⟨d, as, bs⟩ := n
  simp only [Ty.nodesNominal, Ty.nodesAll_eq, hbnds, Nominal.kids, map_append,
    sum_append]

theorem Ty.nodes_eq : ty.nodes = 1 + (ty.kids.map Ty.nodes).sum := by
  cases ty <;> simp [Ty.nodes, Ty.kids, Ty.nodesAll_eq, Ty.nodesNominal_eq]

theorem Ty.nodes_pos : 1 ≤ ty.nodes := by
  rw [ty.nodes_eq]
  omega

/-- A list of types has at least as many nodes as types. -/
theorem length_le_nodes : ts.length ≤ (ts.map Ty.nodes).sum := by
  induction ts with
  | nil => exact Nat.le_refl _
  | cons t ts ih =>
    have := t.nodes_pos
    simp only [length_cons, map_cons, sum_cons]
    omega

/-! ## Depth -/

/-- No node below the type is deeper than the limit, where the type itself is at `depth`. -/
inductive Ty.Within : Nat → Ty → Prop
  | node {depth : Nat} {ty : Ty} : depth ≤ maxTypeDepth → (∀ k ∈ ty.kids, Ty.Within (depth + 1) k) →
      Ty.Within depth ty

namespace ShapeBudget

theorem visitAll_ok
    (ih : ∀ k ∈ types, ∀ {v v'}, visit false v k depth = .ok v' → v' = v + k.nodes ∧ k.Within depth) :
    ∀ {v v'}, visitAll false v types depth = .ok v' →
      v' = v + (types.map Ty.nodes).sum ∧ ∀ k ∈ types, k.Within depth := by
  induction types with
  | nil =>
    intro v v' h
    obtain rfl : v = v' := Except.ok.inj h
    exact ⟨rfl, nofun⟩
  | cons k types iht =>
    intro v v' h
    obtain ⟨mid, hk, hrest⟩ := bind_ok.mp h
    obtain ⟨hhead, htail⟩ := forall_mem_cons.mp ih
    obtain ⟨rfl, hwith⟩ := hhead hk
    obtain ⟨rfl, hall⟩ := iht (fun k hk => htail k hk) hrest
    refine ⟨?_, forall_mem_cons.mpr ⟨hwith, hall⟩⟩
    simp only [map_cons, sum_cons]
    omega

/-- What a visit that is not refused has counted. -/
theorem visit_ok : ∀ {depth v v' : Nat}, visit false v ty depth = .ok v' →
    v' = v + ty.nodes ∧ v' ≤ maxTypeNodes ∧ ty.Within depth := by
  induction ty using Ty.kids_induction with
  | step ty ih =>
    intro depth v v' h
    rw [visit_eq] at h
    obtain ⟨_, -, h⟩ := bind_ok.mp h
    obtain ⟨entered, hen, hkids⟩ := bind_ok.mp h
    obtain ⟨hdep, rfl, children, -, hfit⟩ := enter_ok.mp hen
    obtain ⟨rfl, hwith⟩ := visitAll_ok
      (fun k hk _ _ hv => ⟨(ih k hk hv).1, (ih k hk hv).2.2⟩) hkids
    refine ⟨by rw [ty.nodes_eq]; omega, ?_, .node hdep hwith⟩
    -- the last child to be visited has checked the count
    have hlast : ∀ {types : List Ty}, (∀ k ∈ types, k ∈ ty.kids) → ∀ {v v'}, v ≤ maxTypeNodes →
        visitAll false v types (depth + 1) = .ok v' → v' ≤ maxTypeNodes := by
      intro types
      induction types with
      | nil =>
        intro _ v v' hv h
        obtain rfl : v = v' := Except.ok.inj h
        exact hv
      | cons k types iht =>
        intro hmem v v' _ h
        obtain ⟨mid, hk, hrest⟩ := bind_ok.mp h
        exact iht (fun k hk => hmem k (mem_cons_of_mem _ hk))
          (ih k (hmem k mem_cons_self) hk).2.1 hrest
    exact hlast (fun _ h => h) (by omega) hkids

theorem visitAll_mem :
    ∀ {v v'}, visitAll false v types depth = .ok v' → ∀ {k}, k ∈ types →
      ∃ m m', visit false m k depth = .ok m' := by
  induction types with
  | nil => exact fun _ _ hk => absurd hk not_mem_nil
  | cons t types ih =>
    intro v v' h k hk
    obtain ⟨mid, ht, hrest⟩ := bind_ok.mp h
    rcases mem_cons.mp hk with rfl | hk
    · exact ⟨v, mid, ht⟩
    · exact ih hrest hk

/-- A visit that is not refused is not refused higher up or with fewer nodes counted before. -/
theorem visit_lower : ∀ {depth depth' v v' u : Nat}, visit false v ty depth = .ok v' →
    u ≤ v → depth' ≤ depth → visit false u ty depth' = .ok (u + ty.nodes) := by
  induction ty using Ty.kids_induction with
  | step ty ih =>
    intro depth depth' v v' u h hu hdep'
    rw [visit_eq] at h ⊢
    obtain ⟨_, -, h⟩ := bind_ok.mp h
    obtain ⟨entered, hen, hkids⟩ := bind_ok.mp h
    obtain ⟨hdep, rfl, children, hcnt, hfit⟩ := enter_ok.mp hen
    have hen' : enter u ty depth' = .ok (u + 1) :=
      enter_ok.mpr ⟨by omega, rfl, children, hcnt, by omega⟩
    have hall : ∀ {types : List Ty}, (∀ k ∈ types, k ∈ ty.kids) → ∀ {v v' u}, u ≤ v →
        visitAll false v types (depth + 1) = .ok v' →
        visitAll false u types (depth' + 1) = .ok (u + (types.map Ty.nodes).sum) := by
      intro types
      induction types with
      | nil => exact fun _ _ _ _ _ _ => rfl
      | cons k types iht =>
        intro hmem v v' u hu h
        obtain ⟨mid, hk, hrest⟩ := bind_ok.mp h
        obtain ⟨rfl, -, -⟩ := visit_ok k hk
        have hhead := ih k (hmem k mem_cons_self) hk hu (Nat.succ_le_succ hdep')
        have htail := iht (fun k hk => hmem k (mem_cons_of_mem _ hk))
          (Nat.add_le_add_right hu k.nodes) hrest
        unfold visitAll
        rw [hhead, ok_bind, htail, map_cons, sum_cons, Nat.add_assoc]
    rw [hen', ty.nodes_eq, ← Nat.add_assoc]
    exact hall (fun _ h => h) (Nat.succ_le_succ hu) hkids

end ShapeBudget

theorem validate_ok {ty : Ty} (h : validate ty false = .ok ()) :
    ty.nodes ≤ maxTypeNodes ∧ ty.Within 1 := by
  obtain ⟨v, hv, -⟩ := bind_ok.mp h
  obtain ⟨rfl, hle, hwith⟩ := ShapeBudget.visit_ok ty hv
  exact ⟨by omega, hwith⟩

theorem withinWireLimits_iff {ty : Ty} : ty.withinWireLimits = true ↔ validate ty false = .ok () := by
  unfold Ty.withinWireLimits
  cases validate ty false with
  | error e => simp [Except.toBool]
  | ok _ => simp [Except.toBool]

/-- The children of a nominal that is a valid trait type are valid types. -/
theorem validateNominal_ok {nominal : NominalTy} (h : validateNominal nominal false = .ok ()) :
    Ty.nodesNominal nominal < maxTypeNodes ∧ ∀ k ∈ nominal.kids, k.withinWireLimits = true := by
  obtain ⟨_, -, h⟩ := bind_ok.mp h
  obtain ⟨entered, hen, h⟩ := bind_ok.mp h
  obtain ⟨v, hv, -⟩ := bind_ok.mp h
  have hentd : entered = 1 := by
    unfold ShapeBudget.enterChildren at hen
    split at hen
    · cases hen
    · split at hen
      · cases hen
      · exact (Except.ok.inj hen).symm
  subst hentd
  have htrait : validate (.trait nominal) false = .ok () := by
    have hen' : ShapeBudget.enter 0 (.trait nominal) 1 = .ok 1 := hen
    have hvis : ShapeBudget.visit false 0 (.trait nominal) 1 = .ok v := by
      unfold ShapeBudget.visit
      rw [hen']
      exact hv
    unfold validate
    rw [hvis]
    rfl
  obtain ⟨hnds, -⟩ := validate_ok htrait
  refine ⟨by simp only [Ty.nodes] at hnds; omega, fun k hk => ?_⟩
  have hkids : ∃ v', ShapeBudget.visitAll false 1 nominal.kids 2 = .ok v' := by
    obtain ⟨d, as, bs⟩ := nominal
    refine ⟨v, ?_⟩
    rw [← hv, Nominal.kids, ShapeBudget.visitAll_append]
    simp only [ShapeBudget.visitNominal, ShapeBudget.visitBindings_eq]
  obtain ⟨v', hkids⟩ := hkids
  obtain ⟨m, m', hvis⟩ := ShapeBudget.visitAll_mem hkids hk
  rw [withinWireLimits_iff]
  unfold validate
  rw [ShapeBudget.visit_lower k hvis (Nat.zero_le m) (by decide)]
  rfl

/-! ## Steps -/

theorem Nominal.kids_mapKids (n : NominalTy) : (n.mapKids f).kids = n.kids.map f := by
  simp [Nominal.kids, Nominal.mapKids, Function.comp_def]

theorem Ty.kids_mapKids (ty : Ty) : (ty.mapKids f).kids = ty.kids.map f := by
  cases ty <;> simp [Ty.kids, Ty.mapKids, Nominal.kids_mapKids]

namespace Transform

variable {t : Transform}

theorem step_affords (hcanc : t.cancel = false) (h : depth ≤ maxTypeDepth) :
    Affords (t.step depth) () 1 := by
  intro s hs
  refine ⟨s - 1, ?_, by omega⟩
  have hgrd : ¬(depth > maxTypeDepth ∨ s = 0) := by omega
  unfold step
  rw [hcanc]
  show (if depth > maxTypeDepth ∨ s = 0 then _ else _ : TransformM Unit).run s = _
  rw [if_neg hgrd]
  rfl

section Rebuild

variable {visit : Ty → TransformM Ty} {depth : Nat} {f : Ty → Ty} {cost : Ty → Nat}

theorem many_affords (hlen : types.length ≤ maxTypeNodes)
    (h : ∀ k ∈ types, Affords (visit k) (f k) (cost k)) :
    Affords (many visit types) (types.map f) (types.map cost).sum :=
  Affords.guarded (by omega) (.mapM h)

theorem nominal_affords (hcanc : t.cancel = false) (hdep : depth ≤ maxTypeDepth) {n : NominalTy}
    (hlen : n.kids.length ≤ maxTypeNodes) (h : ∀ k ∈ n.kids, Affords (visit k) (f k) (cost k)) :
    Affords (t.nominal visit depth n) (n.mapKids f) (1 + (n.kids.map cost).sum) := by
  obtain ⟨d, as, bs⟩ := n
  simp only [Nominal.kids, length_append, length_map] at hlen
  simp only [Nominal.kids, mem_append, mem_map] at h
  simp only [Nominal.kids, map_append, sum_append]
  refine .bind (step_affords hcanc hdep) (.guarded (by dsimp only; omega) ?_)
  refine .bind (many_affords (by dsimp only; omega) fun k hk => h k (.inl hk)) ?_
  have hbnds : Affords (bs.mapM fun b => do let value ← visit b.2; return (b.1, value))
      (bs.map fun b => (b.1, f b.2)) (bs.map fun b => cost b.2).sum := by
    exact .mapM fun b hb => .returning (h b.2 (.inr ⟨b, hb, rfl⟩))
  rw [map_map]
  exact .returning hbnds

/-- Rebuilding a type takes at most one step, apart from those of its children. -/
theorem rebuild_affords (houts : t.outputs = none) (hlook : t.lookup = none)
    (hcanc : t.cancel = false) (hdep : depth ≤ maxTypeDepth) {ty : Ty}
    (hlen : ty.kids.length ≤ maxTypeNodes)
    (h : ∀ k ∈ ty.kids, Affords (visit k) (f k) (cost k)) :
    Affords (t.rebuild visit depth ty) (ty.mapKids f) (1 + (ty.kids.map cost).sum) := by
  cases ty with
  | projection arguments receiver interface member =>
    simp only [Ty.kids, mem_cons, mem_append] at h
    simp only [Ty.kids, length_cons, length_append] at hlen
    simp only [Ty.kids, map_cons, map_append, sum_cons, sum_append]
    have hproj : Affords (t.projection visit depth (f receiver) (interface.mapKids f) member
        (arguments.map f)) (.projection (arguments.map f) (f receiver) (interface.mapKids f) member) 0 := by
      unfold projection
      rw [if_neg (by simp [houts, hlook])]
      exact Affords.pure
    refine (Affords.bind (h receiver (.inl rfl)) (Affords.bind (nominal_affords hcanc hdep ?_
      fun k hk => h k (.inr (.inl hk))) (Affords.bind (many_affords ?_
      fun k hk => h k (.inr (.inr hk))) hproj))).mono ?_
    · omega
    · omega
    · omega
  | tuple elements =>
    exact (Affords.returning (many_affords hlen h)).mono (by simp only [Ty.kids]; omega)
  | function params result =>
    simp only [Ty.kids, mem_append, mem_singleton] at h
    simp only [Ty.kids, length_append] at hlen
    simp only [Ty.kids, map_append, sum_append, map_cons, map_nil, sum_cons,
      sum_nil]
    exact (Affords.bind (many_affords (by omega) fun k hk => h k (.inl hk))
      (Affords.returning (h result (.inr rfl)))).mono (by omega)
  | map key value access =>
    simp only [Ty.kids, mem_cons, not_mem_nil, or_false] at h
    simp only [Ty.kids, map_cons, map_nil, sum_cons, sum_nil]
    exact (Affords.bind (h key (.inl rfl)) (Affords.returning (h value (.inr rfl)))).mono (by omega)
  | iter k | range k _ | array k | set k _ | reference k _ =>
    refine (Affords.returning (h k (mem_singleton.mpr rfl))).mono ?_
    simp [Ty.kids]
  | struct n | nativeObject n | enum n | trait n => 
    exact Affords.returning (nominal_affords hcanc hdep hlen h)
  | host _ | selfType _ | parameter _ _ | builtin _ => exact Affords.pure.mono (by omega)

end Rebuild

section Visit

variable (houts : t.outputs = none) (hlook : t.lookup = none) (hcanc : t.cancel = false)

include houts hlook hcanc

/-- At most two steps a node without replacing. -/
theorem visit_false_affords (fuel : Nat) : ∀ depth ty, depth + fuel = maxTypeDepth + 1 →
    ty.Within depth → ty.nodes ≤ maxTypeNodes →
    Affords (t.visit fuel depth false ty) ty (2 * ty.nodes) := by
  induction fuel with
  | zero =>
    rintro depth ty hfuel ⟨hdep, -⟩ -
    omega
  | succ fuel ih =>
    rintro depth ty hfuel ⟨hdep, hkids⟩ hnds
    rw [ty.nodes_eq] at hnds ⊢
    have hlen := length_le_nodes ty.kids
    have hkid : ∀ k ∈ ty.kids, Affords (t.visit fuel (depth + 1) false k) k (2 * k.nodes) := by
      intro k hk
      have hle : k.nodes ≤ (ty.kids.map Ty.nodes).sum :=
        single_le_sum (fun _ _ => Nat.zero_le _) _ (mem_map_of_mem hk)
      exact ih (depth + 1) k (by omega) (hkids k hk) (by omega)
    have hrebuild := @rebuild_affords _ _ depth (fun k => k) _ houts hlook hcanc hdep _
      (by omega) hkid
    rw [Ty.mapKids_id, sum_map_mul_left] at hrebuild
    rw [visit_kept fun h : false = true => nomatch h]
    exact (Affords.bind (step_affords hcanc hdep) hrebuild).mono (by omega)

/-- At most three steps a node of the result with replacing: one more for a replaced variable. -/
theorem visit_true_affords (fuel : Nat) : ∀ depth ty, depth + fuel = maxTypeDepth + 1 →
    (ty.subst t.values).Within depth → (ty.subst t.values).nodes ≤ maxTypeNodes →
    Affords (t.visit fuel depth true ty) (ty.subst t.values) (3 * (ty.subst t.values).nodes) := by
  induction fuel with
  | zero =>
    rintro depth ty hfuel ⟨hdep, -⟩ -
    omega
  | succ fuel ih =>
    intro depth ty hfuel hwith hnds
    rw [Ty.subst_eq, value_values] at hwith hnds ⊢
    cases hrepl : t.replacement ty with
    | some replacement =>
      rw [hrepl] at hwith hnds
      have hpos := replacement.nodes_pos
      have hdep : depth ≤ maxTypeDepth := by
        obtain ⟨h, -⟩ := hwith
        exact h
      rw [visit_replaced hrepl]
      exact (Affords.bind (step_affords hcanc hdep) (visit_false_affords houts hlook hcanc _
        depth replacement hfuel hwith hnds)).mono (by dsimp only [Option.getD_some]; omega)
    | none =>
      rw [hrepl] at hwith hnds
      simp only [Option.getD_none] at hwith hnds ⊢
      obtain ⟨hdep, hkids⟩ := hwith
      rw [Ty.kids_mapKids] at hkids
      rw [Ty.nodes_eq, Ty.kids_mapKids, map_map] at hnds ⊢
      have hlen : ty.kids.length ≤ maxTypeNodes := by
        have := length_le_nodes (ty.kids.map (Ty.subst t.values))
        rw [length_map, map_map] at this
        omega
      have hkid : ∀ k ∈ ty.kids, Affords (t.visit fuel (depth + 1) true k) (k.subst t.values)
          (3 * (k.subst t.values).nodes) := by
        intro k hk
        have hle : (k.subst t.values).nodes ≤ (ty.kids.map (Ty.nodes ∘ Ty.subst t.values)).sum :=
          single_le_sum (fun _ _ => Nat.zero_le _) _
            (mem_map_of_mem (f := Ty.nodes ∘ Ty.subst t.values) hk)
        exact ih (depth + 1) k (by omega) (hkids _ (mem_map_of_mem hk)) (by omega)
      have hrebuild := @rebuild_affords _ _ depth _ _ houts hlook hcanc hdep _ hlen hkid
      rw [sum_map_mul_left] at hrebuild
      rw [visit_kept fun _ => hrepl]
      exact (Affords.bind (step_affords hcanc hdep) hrebuild).mono (by
        show _ ≤ 3 * (1 + (ty.kids.map fun k => (k.subst t.values).nodes).sum)
        omega)

end Visit

end Transform

namespace TypeSubstitution

variable {substitution : TypeSubstitution} {ty result : Ty}

/-- `apply` refuses a substitution only when its result is beyond the wire limits. -/
theorem apply_iff : substitution.apply ty false = .ok result ↔
    result = ty.subst substitution.values ∧ result.withinWireLimits = true := by
  refine ⟨fun h => ?_, ?_⟩
  · have hexact := Transform.run_ok (t := substitution.transform false) rfl rfl h
    rwa [values_transform] at hexact
  · rintro ⟨rfl, hlims⟩
    obtain ⟨hnds, hwith⟩ := validate_ok (withinWireLimits_iff.mp hlims)
    have haffords := Transform.visit_true_affords (t := substitution.transform false) rfl rfl rfl
      maxTypeDepth 1 ty (by decide)
    rw [values_transform] at haffords
    obtain ⟨s', hrun, -⟩ := haffords hwith hnds Transform.maxSteps
      (by unfold Transform.maxSteps; omega)
    unfold apply Transform.run
    rw [hrun]
    show (if _ then _ else _) = _
    rw [if_pos hlims]
    rfl

/-- The first step asks whether the compilation was cancelled. -/
theorem cancel_of_apply {cancel : CancellationToken} (h : substitution.apply ty cancel = .ok result) :
    cancel = false := by
  cases cancel with
  | false => rfl
  | true => exact nomatch h

/-- Two substitutions one after the other are one, which binds every variable of the type to what the second
makes of its value under the first. -/
theorem apply_apply (first second both : TypeSubstitution) (cancel : CancellationToken) (ty middle result : Ty)
    (hfirst : first.apply ty cancel = .ok middle) (hsecond : second.apply middle cancel = .ok result)
    (hvalues : ∀ v ∈ ty.variables, match first.values v with
      | some t => ∃ u, second.apply t cancel = .ok u ∧ both.values v = some u
      | none => both.values v = second.values v) : both.apply ty cancel = .ok result := by
  obtain rfl := cancel_of_apply hfirst
  obtain ⟨rfl, -⟩ := apply_iff.mp hfirst
  obtain ⟨rfl, hlims⟩ := apply_iff.mp hsecond
  refine apply_iff.mpr ⟨?_, hlims⟩
  rw [Ty.subst_subst]
  refine ty.subst_congr fun v hv => ?_
  have hval := hvalues v hv
  cases h : first.values v with
  | none =>
    rw [h] at hval
    exact hval.symm
  | some t =>
    rw [h] at hval
    obtain ⟨u, hu, hboth⟩ := hval
    rw [hboth, (apply_iff.mp hu).1]
    rfl

theorem apply_apply_chain :
    (empty.bind ⟨1, 0⟩ 0 (.builtin .i32) |>.bind ⟨1, 0⟩ 2 (.builtin .bool)).apply
      (.tuple [.parameter ⟨1, 0⟩ 0, .parameter ⟨1, 0⟩ 2]) false = .ok (.tuple [.builtin .i32, .builtin .bool]) :=
  apply_apply (empty.bind ⟨1, 0⟩ 0 (.parameter ⟨1, 0⟩ 1))
    (empty.bind ⟨1, 0⟩ 1 (.builtin .i32) |>.bind ⟨1, 0⟩ 2 (.builtin .bool)) _ false _
    (.tuple [.parameter ⟨1, 0⟩ 1, .parameter ⟨1, 0⟩ 2]) _ rfl rfl
    (List.forall_mem_cons.mpr ⟨⟨_, rfl, rfl⟩, List.forall_mem_singleton.mpr rfl⟩)

end TypeSubstitution

end Kagari
