import Kagari.Hir.ConstOps

/-!
# Constant evaluation agrees with execution

Runs through more initializers extend runs through fewer, so a run has one result (`denote`), which
satisfies the equations of a run. A constant that a run reads has itself a run; one that needs itself
has none (`not_runs_of_needs`).

The evaluator keeps an invariant (`Good`) while constants are in progress: cached values are those of
runs, and a constant that was finished without a value has a run only if that traps, with a reason that
was reported. `constants_agree` puts this together.
-/

namespace Kagari.Hir

open Kagari.Runtime List

/-! ## Results of runs -/

theorem andThen_some {ε α β : Type} {run : Option (Except ε α)} {next : α → Option (Except ε β)} {r : Except ε β} :
    andThen run next = some r ↔
      (∃ e, run = some (.error e) ∧ r = .error e) ∨ ∃ v, run = some (.ok v) ∧ next v = some r := by
  rcases run with _ | e | v
  · simp [andThen]
  · simp [andThen, eq_comm]
  · simp [andThen]

variable {e operand : ConstExpr} {facts : Facts} {op : SourceOp} {t : VmError} {ty : BuiltinType}
  {exhausted : Bool} {span : Span} {steps : Nat}

namespace Execution

variable {H : Type} (x : Execution H)

section Equations

variable {named : ConstId → Option (Except VmError (Value H))} {facts : Facts}

theorem runWith_scalar {scalar : ScalarValue} (h : e.facts.scalar = some scalar) :
    x.runWith named e = some (.ok (x.value scalar)) := by
  unfold runWith
  rw [h]

theorem runWith_name (h : facts.scalar = none) {id : ConstId} :
    x.runWith named (.name facts (some id)) = named id := by
  unfold runWith
  simp only [ConstExpr.facts, h]

theorem runWith_cast (h : facts.scalar = none) :
    x.runWith named (.cast facts operand) =
      andThen (x.runWith named operand) fun value =>
        match operand.facts.ty, facts.ty with
        | some source, some target => x.execute (.convert ⟨source, target⟩) [value]
        | _, _ => none := by
  obtain ⟨span, ty, scalar⟩ := facts
  obtain rfl : scalar = none := h
  rfl

theorem runWith_unary (h : facts.scalar = none) {op : PrefixOp} :
    x.runWith named (.unary facts op operand) =
      andThen (x.runWith named operand) fun value =>
        operand.facts.ty.bind fun input => runUnary x.execute op input value := by
  rw [runWith]
  simp only [ConstExpr.facts, h]

theorem runWith_binary (h : facts.scalar = none) {lhs rhs : ConstExpr} :
    x.runWith named (.binary facts op lhs rhs) =
      andThen (x.runWith named lhs) fun left =>
        x.runRight op lhs.facts.ty rhs.facts.ty left (x.runWith named rhs) := by
  rw [runWith]
  simp only [ConstExpr.facts, h]

end Equations

theorem goesOn_of_plain (h : ¬op.logical = true) (left : Value H) : goesOn op left = true := by
  cases op <;> first | rfl | exact absurd rfl h

variable {r : Except VmError (Value H)}

variable {left : Value H}

/-- The right operand of a binary operator is either not run, or its run ends. -/
theorem runRight_cases {leftTy rightTy : Option BuiltinType}
    {rhs : Option (Except VmError (Value H))}
    (h : x.runRight op leftTy rightTy left rhs = some r) :
    (goesOn op left = false ∧ ∀ rhs', x.runRight op leftTy rightTy left rhs' = some r) ∨
      goesOn op left = true ∧ ∃ result, rhs = some result := by
  unfold runRight at h ⊢
  by_cases hlog : op.logical = true
  · simp only [if_pos hlog] at h ⊢
    unfold runLogical at h ⊢
    cases left with
    | bool value =>
      dsimp only at h ⊢
      split at h
      · rename_i hgoes
        exact .inr ⟨hgoes, r, h⟩
      · rename_i hgoes
        exact .inl ⟨Bool.eq_false_iff.mpr hgoes, fun _ => by rw [if_neg hgoes]; exact h⟩
    | _ => cases h
  · rw [if_neg hlog] at h
    refine .inr ⟨goesOn_of_plain hlog left, ?_⟩
    rcases andThen_some.mp h with ⟨e, he, _⟩ | ⟨v, hv, _⟩
    · exact ⟨_, he⟩
    · exact ⟨_, hv⟩

/-- A right operand that is run and traps. -/
theorem runRight_error {leftTy rightTy : Option BuiltinType}
    (h : goesOn op left = true) :
    x.runRight op leftTy rightTy left (some (.error t)) = some (.error t) := by
  unfold runRight
  by_cases hlog : op.logical = true
  · rw [if_pos hlog]
    cases left with
    | bool value =>
      simp only [runLogical]
      rw [if_pos h]
    | _ => cases op <;> first | (cases h; done) | cases hlog
  · rw [if_neg hlog]
    rfl

/-- A result depends on the runs of finitely many constants, each of which ends. -/
theorem runWith_support {f : ConstId → Option (Except VmError (Value H))} (e : ConstExpr) :
    ∀ r, x.runWith f e = some r → ∃ ids : List ConstId, (∀ id ∈ ids, ∃ r, f id = some r) ∧
      ∀ g, (∀ id ∈ ids, g id = f id) → x.runWith g e = some r := by
  have leaf : ∀ {e : ConstExpr} {r}, (∀ g, x.runWith g e = x.runWith f e) → x.runWith f e = some r →
      ∃ ids : List ConstId, (∀ id ∈ ids, ∃ r, f id = some r) ∧
        ∀ g, (∀ id ∈ ids, g id = f id) → x.runWith g e = some r :=
    fun hsame h => ⟨[], by simp, fun g _ => (hsame g).trans h⟩
  have literal : ∀ {e : ConstExpr} {scalar}, e.facts.scalar = some scalar → ∀ g,
      x.runWith g e = x.runWith f e := fun hscal g => by
    rw [runWith_scalar x hscal, runWith_scalar x hscal]
  induction e with
  | unit facts => exact fun r h => leaf (fun g => by unfold runWith; rfl) h
  | literal facts => exact fun r h => leaf (fun g => by unfold runWith; rfl) h
  | other facts => exact fun r h => leaf (fun g => by unfold runWith; rfl) h
  | name facts target =>
    intro r h
    cases hscal : facts.scalar with
    | some scalar => exact leaf (literal hscal) h
    | none =>
      cases target with
      | none => exact leaf (fun g => by unfold runWith; rfl) h
      | some id =>
        rw [runWith_name x hscal] at h
        refine ⟨[id], by simp [h], fun g hg => ?_⟩
        rw [runWith_name x hscal, hg id (by simp), h]
  | cast facts operand ih =>
    intro r h
    cases hscal : facts.scalar with
    | some scalar => exact leaf (literal hscal) h
    | none =>
      rw [runWith_cast x hscal, andThen_some] at h
      rcases h with ⟨e, hrun, rfl⟩ | ⟨v, hrun, hnext⟩
      · obtain ⟨ids, hids, hg⟩ := ih _ hrun
        exact ⟨ids, hids, fun g h => (runWith_cast x hscal).trans (andThen_some.mpr (.inl ⟨e, hg g h, rfl⟩))⟩
      · obtain ⟨ids, hids, hg⟩ := ih _ hrun
        exact ⟨ids, hids, fun g h => (runWith_cast x hscal).trans (andThen_some.mpr (.inr ⟨v, hg g h, hnext⟩))⟩
  | unary facts op operand ih =>
    intro r h
    cases hscal : facts.scalar with
    | some scalar => exact leaf (literal hscal) h
    | none =>
      rw [runWith_unary x hscal, andThen_some] at h
      rcases h with ⟨e, hrun, rfl⟩ | ⟨v, hrun, hnext⟩
      · obtain ⟨ids, hids, hg⟩ := ih _ hrun
        exact ⟨ids, hids, fun g h => (runWith_unary x hscal).trans (andThen_some.mpr (.inl ⟨e, hg g h, rfl⟩))⟩
      · obtain ⟨ids, hids, hg⟩ := ih _ hrun
        exact ⟨ids, hids, fun g h => (runWith_unary x hscal).trans (andThen_some.mpr (.inr ⟨v, hg g h, hnext⟩))⟩
  | binary facts op lhs rhs ihl ihr =>
    intro r h
    cases hscal : facts.scalar with
    | some scalar => exact leaf (literal hscal) h
    | none =>
      rw [runWith_binary x hscal, andThen_some] at h
      rcases h with ⟨e, hrun, rfl⟩ | ⟨left, hrun, hnext⟩
      · obtain ⟨ids, hids, hg⟩ := ihl _ hrun
        exact ⟨ids, hids, fun g h => (runWith_binary x hscal).trans (andThen_some.mpr (.inl ⟨e, hg g h, rfl⟩))⟩
      · obtain ⟨ids, hids, hg⟩ := ihl _ hrun
        rcases x.runRight_cases hnext with ⟨_, hdcd⟩ | ⟨_, right, hrt⟩
        · exact ⟨ids, hids, fun g h => (runWith_binary x hscal).trans
            (andThen_some.mpr (.inr ⟨left, hg g h, hdcd _⟩))⟩
        · obtain ⟨ids', hids', hg'⟩ := ihr _ hrt
          refine ⟨ids ++ ids', ?_, fun g h => (runWith_binary x hscal).trans (andThen_some.mpr (.inr ⟨left, ?_, ?_⟩))⟩
          · rintro id hid
            rcases mem_append.mp hid with hid | hid
            · exact hids id hid
            · exact hids' id hid
          · exact hg g fun id hid => h id (mem_append_left _ hid)
          · rw [hg' g fun id hid => h id (mem_append_right _ hid), ← hrt]
            exact hnext

/-- A run over more named constants. -/
theorem runWith_mono {f g : ConstId → Option (Except VmError (Value H))}
    (hfg : ∀ id r, f id = some r → g id = some r) (e : ConstExpr) (r : Except VmError (Value H))
    (h : x.runWith f e = some r) : x.runWith g e = some r := by
  obtain ⟨ids, hids, hg⟩ := x.runWith_support e r h
  refine hg g fun id hid => ?_
  obtain ⟨r', hr'⟩ := hids id hid
  rw [hr', hfg id r' hr']

variable (initializer : ConstId → ConstExpr)

theorem named_mono {n m : Nat} (hnm : n ≤ m) : ∀ id r, x.named initializer n id = some r →
    x.named initializer m id = some r := by
  induction n generalizing m with
  | zero => intro id r h; cases h
  | succ n ih =>
    obtain ⟨m, rfl⟩ : ∃ k, m = k + 1 := ⟨m - 1, by omega⟩
    intro id
    exact x.runWith_mono (ih (by omega)) (initializer id)

open Classical in
/-- The result of a constant's run, if it ends. -/
noncomputable def result (id : ConstId) : Option (Except VmError (Value H)) :=
  if h : ∃ r n, x.named initializer n id = some r then some h.choose else none

/-- The result of an expression's run, if it ends. -/
noncomputable def denote (e : ConstExpr) : Option (Except VmError (Value H)) :=
  x.runWith (x.result initializer) e

theorem result_iff {id : ConstId} :
    x.result initializer id = some r ↔ ∃ n, x.named initializer n id = some r := by
  unfold result
  constructor
  · intro h
    split at h
    · rename_i hrun
      cases h
      exact hrun.choose_spec
    · cases h
  · rintro ⟨n, hn⟩
    have hrun : ∃ r n, x.named initializer n id = some r := ⟨r, n, hn⟩
    rw [dif_pos hrun]
    obtain ⟨m, hm⟩ := hrun.choose_spec
    have hleft := x.named_mono initializer (Nat.le_max_left n m) id _ hn
    have hrt := x.named_mono initializer (Nat.le_max_right n m) id _ hm
    exact hrt.symm.trans hleft

/-- Constants whose runs end do so at some common depth. -/
theorem exists_depth (ids : List ConstId) (h : ∀ id ∈ ids, ∃ r, x.result initializer id = some r) :
    ∃ n, ∀ id ∈ ids, x.named initializer n id = x.result initializer id := by
  induction ids with
  | nil => exact ⟨0, by simp⟩
  | cons id ids ih =>
    obtain ⟨n, hn⟩ := ih fun other hother => h other (mem_cons_of_mem _ hother)
    obtain ⟨r, hr⟩ := h id (mem_cons_self ..)
    obtain ⟨m, hm⟩ := (x.result_iff initializer).mp hr
    refine ⟨max n m, fun other hother => ?_⟩
    obtain ⟨r', hr'⟩ := h other hother
    rw [hr']
    rcases mem_cons.mp hother with rfl | hother
    · rw [hr] at hr'
      cases hr'
      exact x.named_mono initializer (Nat.le_max_right n m) _ _ hm
    · refine x.named_mono initializer (Nat.le_max_left n m) _ _ ?_
      rw [hn other hother, hr']

theorem denote_iff :
    x.denote initializer e = some r ↔ x.Runs initializer e r := by
  constructor
  · intro h
    obtain ⟨ids, hids, hg⟩ := x.runWith_support e r h
    obtain ⟨n, hn⟩ := x.exists_depth initializer ids hids
    exact ⟨n, hg _ hn⟩
  · rintro ⟨n, hn⟩
    exact x.runWith_mono (fun id r h => (x.result_iff initializer).mpr ⟨n, h⟩) e r hn

/-- A constant runs as its initializer. -/
theorem result_eq (id : ConstId) : x.result initializer id = x.denote initializer (initializer id) := by
  refine Option.ext fun r => ?_
  rw [x.denote_iff initializer, x.result_iff initializer]
  constructor
  · rintro ⟨n, hn⟩
    cases n with
    | zero => cases hn
    | succ n => exact ⟨n, hn⟩
  · rintro ⟨n, hn⟩
    exact ⟨n + 1, hn⟩

/-! ## Reading constants -/

theorem denote_name (id : ConstId) (h : facts.scalar = none) :
    x.denote initializer (.name facts (some id)) = x.denote initializer (initializer id) := by
  rw [denote, runWith_name x h, result_eq]

theorem denote_cast {source target : BuiltinType} (h : facts.scalar = none)
    (hsrc : operand.facts.ty = some source) (htgt : facts.ty = some target) :
    x.denote initializer (.cast facts operand) =
      andThen (x.denote initializer operand) fun value => x.execute (.convert ⟨source, target⟩) [value] := by
  rw [denote, runWith_cast x h, hsrc, htgt]
  rfl

theorem denote_unary (op : PrefixOp)
    (h : facts.scalar = none) (hty : operand.facts.ty = some ty) :
    x.denote initializer (.unary facts op operand) =
      andThen (x.denote initializer operand) fun value => runUnary x.execute op ty value := by
  rw [denote, runWith_unary x h, hty]
  rfl

theorem denote_binary (op : SourceOp) (lhs rhs : ConstExpr) (h : facts.scalar = none) :
    x.denote initializer (.binary facts op lhs rhs) =
      andThen (x.denote initializer lhs) fun left =>
        x.runRight op lhs.facts.ty rhs.facts.ty left (x.denote initializer rhs) := by
  rw [denote, runWith_binary x h]
  rfl

/-- What a run reads has a run of its own, and no endless chain of reads begins there. -/
theorem acc_of_reads {named : ConstId → Option (Except VmError (Value H))}
    (hnamed : ∀ id r, named id = some r → x.result initializer id = some r)
    (hacc : ∀ id r, named id = some r → Acc (fun a b => x.Needs initializer b a) id)
    {id : ConstId} (h : x.Reads initializer e id) :
    ∀ r, x.runWith named e = some r → Acc (fun a b => x.Needs initializer b a) id := by
  induction h with
  | name hscal =>
    intro r hr
    rw [runWith_name x hscal] at hr
    exact hacc _ r hr
  | cast hscal _ ih =>
    intro r hr
    rw [runWith_cast x hscal, andThen_some] at hr
    rcases hr with ⟨e, hrun, _⟩ | ⟨v, hrun, _⟩ <;> exact ih _ hrun
  | unary hscal _ ih =>
    intro r hr
    rw [runWith_unary x hscal, andThen_some] at hr
    rcases hr with ⟨e, hrun, _⟩ | ⟨v, hrun, _⟩ <;> exact ih _ hrun
  | lhs hscal _ ih =>
    intro r hr
    rw [runWith_binary x hscal, andThen_some] at hr
    rcases hr with ⟨e, hrun, _⟩ | ⟨v, hrun, _⟩ <;> exact ih _ hrun
  | rhs hscal hleft hgoes _ ih =>
    intro r hr
    have hleft := (x.denote_iff initializer).mpr hleft
    rw [runWith_binary x hscal, andThen_some] at hr
    rcases hr with ⟨e, hrun, _⟩ | ⟨v, hrun, hnext⟩
    · have := hleft.symm.trans (x.runWith_mono hnamed _ _ hrun)
      cases this
    · have hsame := hleft.symm.trans (x.runWith_mono hnamed _ _ hrun)
      cases Option.some.inj hsame
      rcases x.runRight_cases hnext with ⟨hdec, _⟩ | ⟨_, right, hrt⟩
      · rw [hgoes] at hdec
        cases hdec
      · exact ih _ hrt

theorem acc_of_named (n : Nat) : ∀ id r, x.named initializer n id = some r →
    Acc (fun a b => x.Needs initializer b a) id := by
  induction n with
  | zero => intro id r h; cases h
  | succ n ih =>
    intro id r h
    exact Acc.intro _ fun other hneeds => x.acc_of_reads initializer
      (fun id r h => (x.result_iff initializer).mpr ⟨n, h⟩) ih hneeds r h

/-- A constant whose run needs itself has no result. -/
theorem not_runs_of_needs {id : ConstId} (h : Relation.TransGen (x.Needs initializer) id id)
    (r : Except VmError (Value H)) : x.denote initializer (initializer id) ≠ some r := by
  intro hr
  rw [← result_eq] at hr
  obtain ⟨n, hn⟩ := (x.result_iff initializer).mp hr
  have hirrefl : ∀ a, Acc (Relation.TransGen fun a b => x.Needs initializer b a) a →
      ¬Relation.TransGen (fun a b => x.Needs initializer b a) a a := by
    intro a hacc
    induction hacc with
    | intro a _ ih => exact fun haa => ih a haa haa
  exact hirrefl id (x.acc_of_named initializer n id r hn).transGen (Relation.transGen_swap.mpr h)

/-- A trap of a constant is one of every run that reads it. -/
theorem trap_of_reads {id : ConstId} (h : x.Reads initializer e id)
    (ht : x.denote initializer (initializer id) = some (.error t)) : x.denote initializer e = some (.error t) := by
  induction h with
  | name hscal => rw [denote_name x initializer _ hscal, ht]
  | cast hscal _ ih =>
    rw [denote, runWith_cast x hscal]
    exact andThen_some.mpr (.inl ⟨t, ih ht, rfl⟩)
  | unary hscal _ ih =>
    rw [denote, runWith_unary x hscal]
    exact andThen_some.mpr (.inl ⟨t, ih ht, rfl⟩)
  | lhs hscal _ ih =>
    rw [denote, runWith_binary x hscal]
    exact andThen_some.mpr (.inl ⟨t, ih ht, rfl⟩)
  | rhs hscal hleft hgoes _ ih =>
    rw [denote_binary x initializer _ _ _ hscal]
    refine andThen_some.mpr (.inr ⟨_, (x.denote_iff initializer).mpr hleft, ?_⟩)
    rw [ih ht]
    exact runRight_error x hgoes

end Execution

/-! ## Equations of evaluation -/

namespace Evaluator

variable {m : ConstModule} {expression : ConstId → ConstExpr → Evaluator → Option ScalarValue × Evaluator}
  {owner : ConstId} {facts : Facts} {s : Evaluator}

theorem expressionInner_scalar {value : ScalarValue} (h : e.facts.scalar = some value) :
    expressionInner m expression owner e s = (some value, s) := by
  unfold expressionInner
  rw [h]

theorem expressionInner_name (h : facts.scalar = none) {id : ConstId} :
    expressionInner m expression owner (.name facts (some id)) s = constantWith m expression id s := by
  unfold expressionInner
  simp only [ConstExpr.facts, h]

theorem expressionInner_cast (h : facts.scalar = none) {target : BuiltinType}
    (htgt : facts.ty = some target) :
    expressionInner m expression owner (.cast facts operand) s =
      match expression owner operand s with
      | (none, s) => (none, s)
      | (some value, s) => (value.castNumeric m.conversions target, s) := by
  obtain ⟨span, ty, scalar⟩ := facts
  obtain rfl : scalar = none := h
  obtain rfl : ty = some target := htgt
  rfl

theorem expressionInner_unary (h : facts.scalar = none) {op : PrefixOp} :
    expressionInner m expression owner (.unary facts op operand) s =
      match expression owner operand s with
      | (none, s) => (none, s)
      | (some value, s) => s.report owner facts.span (unary op value) := by
  obtain ⟨span, ty, scalar⟩ := facts
  obtain rfl : scalar = none := h
  rfl

theorem expressionInner_binary (h : facts.scalar = none) {lhs rhs : ConstExpr} :
    expressionInner m expression owner (.binary facts op lhs rhs) s =
      match expression owner lhs s with
      | (none, s) => (none, s)
      | (some left, s) =>
        if op.decided left then (some left, s)
        else
          match expression owner rhs s with
          | (none, s) => (none, s)
          | (some right, s) => s.report owner facts.span (binary m.floats op left right) := by
  obtain ⟨span, ty, scalar⟩ := facts
  obtain rfl : scalar = none := h
  rfl

end Evaluator

/-! ## The invariant of evaluation -/

theorem Typed.facts_ty {type : ConstId → BuiltinType} {among : ConstId → Prop}
    (h : Typed type among e ty) : e.facts.ty = some ty := by
  cases h <;> assumption

variable {ids pending : List ConstId} {l : ScalarValue} {owner : ConstId} {s : Evaluator}
  {value : Option ScalarValue}

section Evaluation

variable {H : Type} (m : ConstModule) (x : Execution H) (among : ConstId → Prop)

/-- The value is that of a run, in the type. -/
structure Has (e : ConstExpr) (ty : BuiltinType) (v : ScalarValue) : Prop where
  valid : v.Valid
  ty : v.ty = ty
  run : x.denote m.initializer e = some (.ok (x.value v))

/-- A run of the expression, evaluated for a constant, traps if it ends: a constant that is needed
reported the reason. -/
def Stopped (diagnostics : List ConstDiagnostic) (owner : ConstId) (e : ConstExpr) : Prop :=
  ∀ r, x.denote m.initializer e = some r → ∃ reason other span, r = .error (.runtime (trap reason)) ∧
    Relation.ReflTransGen (x.Needs m.initializer) owner other ∧ among other ∧
    .invalidInitializer other reason span ∈ diagnostics

/-- The state of an evaluator with these constants in progress. -/
structure Good (pending : List ConstId) (s : Evaluator) : Prop where
  value : ∀ id v, among id → s.cache id = some (some v) → Has m x (m.initializer id) (m.type id) v
  stopped : s.exhausted = false → ∀ id, among id → s.cache id = some none →
    id ∈ pending ∨ Stopped m x among s.diagnostics id (m.initializer id)
  reported : ∀ owner reason span, among owner → .invalidInitializer owner reason span ∈ s.diagnostics →
    x.denote m.initializer (m.initializer owner) = some (.error (.runtime (trap reason)))

/-- What evaluation only adds to. -/
structure Grown (s s' : Evaluator) : Prop where
  cache : ∀ id v, s.cache id = some v → s'.cache id = some v
  diagnostics : s.diagnostics ⊆ s'.diagnostics
  exhausted : s.exhausted = true → s'.exhausted = true
  steps : s.steps ≤ m.limits.maxSteps → s'.steps ≤ m.limits.maxSteps

/-- The expression is evaluated as part of this constant, with these constants in progress. -/
structure Within (pending : List ConstId) (owner : ConstId) (e : ConstExpr) : Prop where
  admitted : among owner
  stops : ∀ t, x.denote m.initializer e = some (.error t) →
    x.denote m.initializer (m.initializer owner) = some (.error t)
  reads : ∀ id, x.Reads m.initializer e id → x.Needs m.initializer owner id
  chain : ∀ id ∈ pending, among id → Relation.ReflTransGen (x.Needs m.initializer) id owner

/-- What an evaluation of an expression of a type leads to. -/
structure Evaluated (pending : List ConstId) (owner : ConstId) (e : ConstExpr) (ty : BuiltinType) (s : Evaluator)
    (result : Option ScalarValue × Evaluator) : Prop where
  good : Good m x among pending result.2
  grown : Grown m s result.2
  value : ∀ v, result.1 = some v → Has m x e ty v
  stopped : result.1 = none → result.2.exhausted = true ∨ Stopped m x among result.2.diagnostics owner e

variable {m x among}

theorem Grown.refl (s : Evaluator) : Grown m s s := ⟨fun _ _ h => h, fun _ h => h, id, id⟩

theorem Grown.trans {s₁ s₂ s₃ : Evaluator} (h : Grown m s₁ s₂) (h' : Grown m s₂ s₃) : Grown m s₁ s₃ :=
  ⟨fun id v hv => h'.cache id v (h.cache id v hv), fun _ hd => h'.diagnostics (h.diagnostics hd),
    fun he => h'.exhausted (h.exhausted he), fun hs => h'.steps (h.steps hs)⟩

variable {e : ConstExpr}

theorem Stopped.mono {diagnostics diagnostics' : List ConstDiagnostic}
    (h : Stopped m x among diagnostics owner e) (hsub : diagnostics ⊆ diagnostics') :
    Stopped m x among diagnostics' owner e := by
  intro r hr
  obtain ⟨reason, other, span, rfl, hneeds, hother, hmem⟩ := h r hr
  exact ⟨reason, other, span, rfl, hneeds, hother, hsub hmem⟩

/-- A run that goes on only after a run that has stopped. -/
theorem Stopped.of_part {diagnostics : List ConstDiagnostic} {e part : ConstExpr}
    (h : Stopped m x among diagnostics owner part)
    (hpart : ∀ r, x.denote m.initializer e = some r → ∃ r', x.denote m.initializer part = some r' ∧
      ∀ t, r' = .error t → r = .error t) : Stopped m x among diagnostics owner e := by
  intro r hr
  obtain ⟨r', hr', hsame⟩ := hpart r hr
  obtain ⟨reason, other, span, rfl, hrest⟩ := h r' hr'
  exact ⟨reason, other, span, hsame _ rfl, hrest⟩

theorem part_of_andThen {ε α β : Type} {run : Option (Except ε α)} {next : α → Option (Except ε β)} {r : Except ε β}
    (h : andThen run next = some r) : ∃ r', run = some r' ∧ ∀ t, r' = .error t → r = .error t := by
  rcases andThen_some.mp h with ⟨e, hrun, rfl⟩ | ⟨v, hrun, _⟩
  · exact ⟨_, hrun, fun t ht => by cases ht; rfl⟩
  · exact ⟨_, hrun, fun t ht => by cases ht⟩

/-! ## Steps of the evaluator -/

theorem enter_spec (room : Nat) (span : Span)
    (h : Good m x among pending s) :
    Good m x among pending (Evaluator.enter m room span s).2 ∧ Grown m s (Evaluator.enter m room span s).2 ∧
      ((Evaluator.enter m room span s).1 = false → (Evaluator.enter m room span s).2.exhausted = true) := by
  have hexc : ∀ resource limit, Good m x among pending
        { s with diagnostics := s.diagnostics ++ [.limitExceeded resource limit span], exhausted := true } ∧
      Grown m s { s with diagnostics := s.diagnostics ++ [.limitExceeded resource limit span], exhausted := true } := by
    intro resource limit
    refine ⟨⟨h.value, (fun he => by cases he), fun owner reason span' hown hmem => ?_⟩,
      ⟨fun _ _ h => h, subset_append_left .., fun _ => rfl, id⟩⟩
    rcases mem_append.mp hmem with hmem | hmem
    · exact h.reported owner reason span' hown hmem
    · simp at hmem
  unfold Evaluator.enter
  split
  · exact ⟨h, .refl s, fun _ => by assumption⟩
  · dsimp only
    split
    · exact ⟨(hexc ..).1, (hexc ..).2, fun _ => rfl⟩
    · rename_i hsteps
      split
      · exact ⟨(hexc ..).1, (hexc ..).2, fun _ => rfl⟩
      · refine ⟨⟨h.value, h.stopped, h.reported⟩, ⟨fun _ _ h => h, fun _ h => h, id, fun _ => ?_⟩,
          fun he => by cases he⟩
        show s.steps + 1 ≤ _
        omega

theorem Good.insert_none (h : Good m x among pending s) (id : ConstId) :
    Good m x among (id :: pending) (s.insert id none) := by
  constructor
  · intro other v hother hcch
    unfold Evaluator.insert at hcch
    dsimp only at hcch
    split at hcch
    · cases hcch
    · exact h.value other v hother hcch
  · intro he other hother hcch
    unfold Evaluator.insert at hcch
    dsimp only at hcch
    split at hcch
    · exact .inl (by simp [*])
    · exact (h.stopped he other hother hcch).imp (mem_cons_of_mem _) fun h => h
  · exact h.reported

variable {id : ConstId}

theorem Good.insert
    (h : Good m x among (id :: pending) s)
    (hval : among id → ∀ v, value = some v → Has m x (m.initializer id) (m.type id) v)
    (hstopped : among id → value = none → s.exhausted = true ∨
      Stopped m x among s.diagnostics id (m.initializer id)) : Good m x among pending (s.insert id value) := by
  constructor
  · intro other v hother hcch
    unfold Evaluator.insert at hcch
    dsimp only at hcch
    split at hcch
    · rename_i heq
      subst heq
      exact hval hother v (Option.some.inj hcch)
    · exact h.value other v hother hcch
  · intro he other hother hcch
    unfold Evaluator.insert at hcch
    dsimp only at hcch
    split at hcch
    · rename_i heq
      subst heq
      rcases hstopped hother (Option.some.inj hcch) with hexh | hstop
      · rw [show (s.insert other value).exhausted = s.exhausted from rfl, hexh] at he
        cases he
      · exact .inr hstop
    · rename_i hne
      rcases h.stopped he other hother hcch with hmem | hstop
      · exact .inl ((mem_cons.mp hmem).resolve_left hne)
      · exact .inr hstop
  · exact h.reported

theorem Grown.insert {s s' : Evaluator} (hnone : s.cache id = none)
    (h : Grown m (s.insert id none) s') : Grown m s (s'.insert id value) := by
  refine ⟨fun other v hv => ?_, h.diagnostics, h.exhausted, h.steps⟩
  have hne : other ≠ id := by
    rintro rfl
    rw [hnone] at hv
    cases hv
  have hins : ∀ (s : Evaluator) value, (s.insert id value).cache other = s.cache other := fun s value => if_neg hne
  rw [hins]
  exact h.cache other v ((hins s none).trans hv)

/-- Reporting the failure of an operator, where a run fails with the same reason. -/
theorem report_spec
    {result : Except String ScalarValue} (hs : Good m x among pending s)
    (hown : among owner → ∀ t, x.denote m.initializer e = some (.error t) →
      x.denote m.initializer (m.initializer owner) = some (.error t))
    (hrun : x.denote m.initializer e = some (x.outcome result))
    (hval : ∀ v, result = .ok v → v.Valid ∧ v.ty = ty) (hamong : among owner) :
    Evaluated m x among pending owner e ty s (s.report owner span (some result)) := by
  cases result with
  | ok v =>
    refine ⟨hs, .refl s, ?_, fun h => by cases h⟩
    rintro w hw
    cases hw
    obtain ⟨hvld, hty⟩ := hval v rfl
    exact ⟨hvld, hty, hrun⟩
  | error reason =>
    have hfails := hown hamong _ hrun
    refine ⟨⟨hs.value, fun he id hid hcch => ?_, fun owner' reason' span' hamong' hmem => ?_⟩,
      ⟨fun _ _ h => h, subset_append_left .., id, id⟩, (fun v hv => by cases hv), fun _ => .inr ?_⟩
    · exact (hs.stopped he id hid hcch).imp (fun h => h) fun h => h.mono (subset_append_left ..)
    · rcases mem_append.mp hmem with hmem | hmem
      · exact hs.reported owner' reason' span' hamong' hmem
      · simp only [mem_singleton, ConstDiagnostic.invalidInitializer.injEq] at hmem
        obtain ⟨rfl, rfl, rfl⟩ := hmem
        exact hfails
    · intro r hr
      rw [hrun] at hr
      cases hr
      exact ⟨reason, owner, span, rfl, .refl, hamong, by simp [Evaluator.report]⟩

/-! ## Admitted expressions -/

/-- A constant, over an evaluation of its initializer. A constant in progress has no run. -/
theorem constantWith_spec
    {expression : ConstId → ConstExpr → Evaluator → Option ScalarValue × Evaluator} (hid : among id)
    (hpend : id ∈ pending → ∀ r, x.denote m.initializer (m.initializer id) ≠ some r)
    (hchn : ∀ other ∈ pending, among other → Relation.ReflTransGen (x.Needs m.initializer) other id)
    (hexpr : ∀ s, Within m x among (id :: pending) id (m.initializer id) → Good m x among (id :: pending) s →
      Evaluated m x among (id :: pending) id (m.initializer id) (m.type id) s (expression id (m.initializer id) s))
    (hs : Good m x among pending s) :
    Evaluated m x among pending id (m.initializer id) (m.type id) s (Evaluator.constantWith m expression id s) ∧
      (Evaluator.constantWith m expression id s).2.cache id = some (Evaluator.constantWith m expression id s).1 := by
  unfold Evaluator.constantWith
  cases hcch : s.cache id with
  | some value =>
    refine ⟨⟨hs, .refl s, ?_, ?_⟩, hcch⟩
    · rintro v rfl
      exact hs.value id v hid hcch
    · rintro rfl
      cases he : s.exhausted with
      | true => exact .inl rfl
      | false =>
        rcases hs.stopped he id hid hcch with hmem | hstop
        · exact .inr fun r hr => absurd hr (hpend hmem r)
        · exact .inr hstop
  | none =>
    have hwith : Within m x among (id :: pending) id (m.initializer id) := by
      refine ⟨hid, fun _ h => h, fun _ h => h, fun other hmem hother => ?_⟩
      rcases mem_cons.mp hmem with rfl | hmem
      · exact .refl
      · exact hchn other hmem hother
    have hinn := hexpr _ hwith (hs.insert_none id)
    refine ⟨⟨hinn.good.insert (fun _ => hinn.value) fun _ => hinn.stopped, hinn.grown.insert hcch,
      hinn.value, hinn.stopped⟩, ?_⟩
    exact if_pos rfl

theorem Evaluated.after
    {s s' : Evaluator} {result : Option ScalarValue × Evaluator} (h : Evaluated m x among pending owner e ty s' result)
    (hgrown : Grown m s s') : Evaluated m x among pending owner e ty s result :=
  ⟨h.good, hgrown.trans h.grown, h.value, h.stopped⟩

/-- An evaluation that stops with one of its parts. -/
theorem Evaluated.stop {e part : ConstExpr} {ty partTy : BuiltinType}
    {s s' : Evaluator} (h : Evaluated m x among pending owner part partTy s (none, s'))
    (hpart : ∀ r, x.denote m.initializer e = some r → ∃ r', x.denote m.initializer part = some r' ∧
      ∀ t, r' = .error t → r = .error t) : Evaluated m x among pending owner e ty s (none, s') :=
  ⟨h.good, h.grown, (fun _ h => by cases h), fun _ => (h.stopped rfl).imp id fun h => h.of_part hpart⟩

/-- A left operand that decides is the result of a run. -/
theorem decided_spec (x : Execution H) (h : op.decided l = true) :
    op.result l.ty = l.ty ∧
      ∀ {leftTy rightTy rhs}, x.runRight op leftTy rightTy (x.value l) rhs = some (.ok (x.value l)) := by
  cases l with
  | bool b => cases op <;> cases b <;> first | (cases h; done) | exact ⟨rfl, rfl⟩
  | _ => cases op <;> cases h

/-- After a left operand that does not decide a run goes on. -/
theorem goesOn_spec (x : Execution H) {right : BuiltinType} (hl : l.Valid)
    (hop : supportsConstBinary op l.ty right) (h : ¬op.decided l = true) : goesOn op (x.value l) = true := by
  rcases hl.cases with ⟨b, rfl⟩ | ⟨n, ty, rfl, _⟩
  · cases op <;> cases b <;> first | rfl | exact absurd rfl h
  · cases op <;> first | rfl | (cases ty <;> cases hop)

/-- A binary operator on the values of both operands. -/
theorem right_agrees (x : Execution H) (floats : Floats) {l r : ScalarValue}
    {leftTy rightTy : Option BuiltinType} (hleft : leftTy = some l.ty) (hrt : rightTy = some r.ty) (hl : l.Valid)
    (hr : r.Valid) (hop : supportsConstBinary op l.ty r.ty) (hgoes : goesOn op (x.value l) = true) :
    ∃ result, binary floats op l r = some result ∧
      x.runRight op leftTy rightTy (x.value l) (some (.ok (x.value r))) = some (x.outcome result) ∧
      ∀ w, result = .ok w → w.Valid ∧ w.ty = op.result l.ty := by
  subst hleft hrt
  by_cases hlog : op.logical = true
  · obtain ⟨b, rfl⟩ : ∃ b, l = .bool b := by
      rcases hl.cases with h | ⟨n, ty, rfl, _⟩
      · exact h
      · cases op <;> first | (cases hlog; done) | (cases ty <;> cases hop)
    obtain ⟨c, rfl⟩ : ∃ c, r = .bool c := by
      rcases hr.cases with h | ⟨n, ty, rfl, _⟩
      · exact h
      · cases op <;> first | (cases hlog; done) | (cases ty <;> cases hop)
    refine ⟨.ok (.bool c), ?_, ?_, ?_⟩
    · cases op <;> first | (cases hlog; done) | (cases b <;> first | rfl | cases hgoes)
    · cases op <;> first | (cases hlog; done) | (cases b <;> first | rfl | cases hgoes)
    · rintro w hw
      cases hw
      exact ⟨trivial, by cases op <;> rfl⟩
  · obtain ⟨result, hres, hexec, hress⟩ :=
      binary_agrees x floats (Bool.eq_false_iff.mpr hlog) hl hr hop
    refine ⟨result, hres, ?_, hress⟩
    unfold Execution.runRight
    rw [if_neg hlog]
    exact hexec

section Inner

variable {expression : ConstId → ConstExpr → Evaluator → Option ScalarValue × Evaluator}
  (hadm : m.Admitted among)
  (hexpr : ∀ {pending owner e ty s}, Typed m.type among e ty → Within m x among pending owner e →
    Good m x among pending s → Evaluated m x among pending owner e ty s (expression owner e s))
  {pending : List ConstId} {owner : ConstId} {facts : Facts} {s : Evaluator}
include hadm hexpr

theorem name_spec {id : ConstId} (hscal : facts.scalar = none) (hid : among id)
    (hwith : Within m x among pending owner (.name facts (some id))) (hs : Good m x among pending s) :
    Evaluated m x among pending owner (.name facts (some id)) (m.type id) s
      (Evaluator.constantWith m expression id s) := by
  have hneeds : x.Needs m.initializer owner id := hwith.reads id (.name hscal)
  have hden := x.denote_name m.initializer id hscal
  obtain ⟨h, _⟩ := constantWith_spec (x := x) (m := m) hid
    (fun hmem r => x.not_runs_of_needs m.initializer
      (.tail' (hwith.chain id hmem hid) hneeds) r)
    (fun other hmem hother => (hwith.chain other hmem hother).tail hneeds)
    (fun s hwith hs => hexpr (hadm id hid) hwith hs) hs
  refine ⟨h.good, h.grown, fun v hv => ?_, fun hnone => (h.stopped hnone).imp (fun h => h) fun hstop => ?_⟩
  · obtain ⟨hvld, hty, hrun⟩ := h.value v hv
    exact ⟨hvld, hty, hden.trans hrun⟩
  · intro r hr
    obtain ⟨reason, other, span, rfl, hrch, hrest⟩ := hstop r (hden.symm.trans hr)
    exact ⟨reason, other, span, rfl, .head hneeds hrch, hrest⟩

omit hadm in
theorem binary_spec {lhs rhs : ConstExpr} {left right : BuiltinType} (hscal : facts.scalar = none)
    (hlhs : Typed m.type among lhs left) (hrhs : Typed m.type among rhs right)
    (hop : supportsConstBinary op left right)
    (hwith : Within m x among pending owner (.binary facts op lhs rhs)) (hs : Good m x among pending s) :
    Evaluated m x among pending owner (.binary facts op lhs rhs) (op.result left) s
      (Evaluator.expressionInner m expression owner (.binary facts op lhs rhs) s) := by
  have hden := x.denote_binary m.initializer op lhs rhs hscal
  have hpart : Evaluated m x among pending owner lhs left s (expression owner lhs s) :=
    hexpr hlhs ⟨hwith.admitted,
      fun t ht => hwith.stops t (hden.trans (andThen_some.mpr (.inl ⟨t, ht, rfl⟩))),
      fun id hid => hwith.reads id (.lhs hscal hid), hwith.chain⟩ hs
  rw [Evaluator.expressionInner_binary hscal]
  rcases hrun : expression owner lhs s with ⟨_ | l, s₁⟩
  · rw [hrun] at hpart
    exact hpart.stop fun r hr => part_of_andThen (hden.symm.trans hr)
  rw [hrun] at hpart
  obtain ⟨hvld, rfl, hleft⟩ := hpart.value l rfl
  rw [hleft] at hden
  change _ = x.runRight op lhs.facts.ty rhs.facts.ty (x.value l) (x.denote m.initializer rhs) at hden
  dsimp only
  by_cases hdcd : op.decided l = true
  · -- the left operand is the result
    rw [if_pos hdcd]
    refine ⟨hpart.good, hpart.grown, ?_, fun h => by cases h⟩
    rintro v hv
    cases hv
    obtain ⟨hres, hrt⟩ := decided_spec x hdcd
    exact ⟨hvld, hres.symm, by rw [hden, hrt]⟩
  · rw [if_neg hdcd]
    have hgoes := goesOn_spec x hvld hop hdcd
    have hpart₂ : Evaluated m x among pending owner rhs right s₁ (expression owner rhs s₁) := by
      refine hexpr hrhs ⟨hwith.admitted, fun t ht => hwith.stops t ?_,
        fun id hid => hwith.reads id (.rhs hscal ((x.denote_iff _).mp hleft) hgoes hid), hwith.chain⟩ hpart.good
      rw [hden, ht]
      exact x.runRight_error hgoes
    rcases hrun₂ : expression owner rhs s₁ with ⟨_ | r, s₂⟩
    · rw [hrun₂] at hpart₂
      refine (hpart₂.stop fun r hr => ?_).after hpart.grown
      have hrt := hden.symm.trans hr
      rcases x.runRight_cases hrt with ⟨hstops, _⟩ | ⟨_, result, hres⟩
      · rw [hgoes] at hstops
        cases hstops
      · refine ⟨result, hres, ?_⟩
        rintro t rfl
        rw [hres, x.runRight_error hgoes] at hrt
        exact (Option.some.inj hrt).symm
    · rw [hrun₂] at hpart₂
      obtain ⟨hvld₂, rfl, hrt⟩ := hpart₂.value r rfl
      dsimp only
      rw [hrt] at hden
      obtain ⟨result, hres, hexec, hress⟩ :=
        right_agrees x m.floats hlhs.facts_ty hrhs.facts_ty hvld hvld₂ hop hgoes
      rw [hres]
      exact (report_spec hpart₂.good (fun _ => hwith.stops) (hden.trans hexec) hress
        hwith.admitted).after (hpart.grown.trans hpart₂.grown)

theorem expressionInner_spec {e : ConstExpr} {ty : BuiltinType} (hty : Typed m.type among e ty)
    (hwith : Within m x among pending owner e) (hs : Good m x among pending s) :
    Evaluated m x among pending owner e ty s (Evaluator.expressionInner m expression owner e s) := by
  cases hty with
  | @scalar e value hscal hvld _ =>
    rw [Evaluator.expressionInner_scalar hscal]
    refine ⟨hs, .refl s, ?_, fun h => by cases h⟩
    rintro v hv
    cases hv
    exact ⟨hvld, rfl, x.runWith_scalar hscal⟩
  | @name facts id hscal hid _ =>
    rw [Evaluator.expressionInner_name hscal]
    exact name_spec hadm hexpr hscal hid hwith hs
  | @cast facts operand source _ hscal hopnd htgt hdom hcast =>
    have hden := x.denote_cast m.initializer hscal hopnd.facts_ty htgt
    have hpart : Evaluated m x among pending owner operand source s (expression owner operand s) :=
      hexpr hopnd ⟨hwith.admitted,
        fun t ht => hwith.stops t (hden.trans (andThen_some.mpr (.inl ⟨t, ht, rfl⟩))),
        fun id hid => hwith.reads id (.cast hscal hid), hwith.chain⟩ hs
    rw [Evaluator.expressionInner_cast hscal htgt]
    rcases hrun : expression owner operand s with ⟨_ | v, s'⟩
    · rw [hrun] at hpart
      exact hpart.stop fun r hr => part_of_andThen (hden.symm.trans hr)
    · rw [hrun] at hpart
      obtain ⟨hvld, rfl, hval⟩ := hpart.value v rfl
      obtain ⟨w, hw, hwvalid, hwty, hexec⟩ := cast_agrees x m.conversions hvld hdom hcast
      dsimp only
      rw [hw]
      refine ⟨hpart.good, hpart.grown, ?_, fun h => by cases h⟩
      rintro v' hv'
      cases hv'
      refine ⟨hwvalid, hwty, ?_⟩
      rw [hden, hval]
      exact hexec
  | @unary facts op operand _ hscal hopnd _ hop =>
    have hden := x.denote_unary m.initializer op hscal hopnd.facts_ty
    have hpart : Evaluated m x among pending owner operand ty s (expression owner operand s) :=
      hexpr hopnd ⟨hwith.admitted,
        fun t ht => hwith.stops t (hden.trans (andThen_some.mpr (.inl ⟨t, ht, rfl⟩))),
        fun id hid => hwith.reads id (.unary hscal hid), hwith.chain⟩ hs
    rw [Evaluator.expressionInner_unary hscal]
    rcases hrun : expression owner operand s with ⟨_ | v, s'⟩
    · rw [hrun] at hpart
      exact hpart.stop fun r hr => part_of_andThen (hden.symm.trans hr)
    · rw [hrun] at hpart
      obtain ⟨hvld, rfl, hval⟩ := hpart.value v rfl
      obtain ⟨result, hres, hexec, hress⟩ := unary_agrees x hvld hop
      dsimp only
      rw [hres]
      refine (report_spec hpart.good (fun _ => hwith.stops) ?_ hress hwith.admitted).after hpart.grown
      rw [hden, hval]
      exact hexec
  | @binary facts op lhs rhs left right hscal hlhs hrhs _ hop =>
    exact binary_spec hexpr hscal hlhs hrhs hop hwith hs

end Inner

/-- Entering an expression, and then what is inside. -/
theorem expression_enter {room : Nat}
    {Q : Option ScalarValue × Evaluator → Prop}
    (hrefd : ∀ s', Evaluator.enter m room e.facts.span s = (false, s') → Q (none, s'))
    (hentd : ∀ room' s', room = room' + 1 → Evaluator.enter m room e.facts.span s = (true, s') →
      Q (Evaluator.expressionInner m (Evaluator.expression m room') owner e s')) :
    Q (Evaluator.expression m room owner e s) := by
  unfold Evaluator.expression
  rcases hen : Evaluator.enter m room e.facts.span s with ⟨_ | _, s'⟩
  · exact hrefd s' hen
  · cases room with
    | zero =>
      unfold Evaluator.enter at hen
      split at hen
      · cases hen
      · dsimp only at hen
        split at hen
        · cases hen
        · rw [if_pos rfl] at hen
          cases hen
    | succ room => exact hentd room s' rfl hen

/-- An admitted expression is evaluated as it is run. -/
theorem expression_spec (hadm : m.Admitted among) (room : Nat) : ∀ {pending : List ConstId} {owner : ConstId}
    {e : ConstExpr} {ty : BuiltinType} {s : Evaluator}, Typed m.type among e ty →
    Within m x among pending owner e → Good m x among pending s →
    Evaluated m x among pending owner e ty s (Evaluator.expression m room owner e s) := by
  induction room with
  | zero =>
    intro pending owner e ty s _ _ hs
    refine expression_enter (fun s' hen => ?_) fun room' s' hroom => by omega
    have hspec := enter_spec 0 e.facts.span hs
    rw [hen] at hspec
    exact ⟨hspec.1, hspec.2.1, (fun _ h => by cases h), fun _ => .inl (hspec.2.2 rfl)⟩
  | succ room ih =>
    intro pending owner e ty s hty hwith hs
    have hspec := enter_spec (room + 1) e.facts.span hs
    refine expression_enter (fun s' hen => ?_) fun room' s' hroom hen => ?_
    · rw [hen] at hspec
      exact ⟨hspec.1, hspec.2.1, (fun _ h => by cases h), fun _ => .inl (hspec.2.2 rfl)⟩
    · rw [hen] at hspec
      obtain rfl : room = room' := by omega
      exact (expressionInner_spec hadm ih hty hwith hspec.1).after hspec.2.1

/-! ## Other expressions -/

theorem report_other
    {result : Option (Except String ScalarValue)} (hown : ¬among owner)
    (hs : Good m x among pending s) :
    Good m x among pending (s.report owner span result).2 ∧ Grown m s (s.report owner span result).2 := by
  rcases result with _ | reason | v
  · exact ⟨hs, .refl s⟩
  · refine ⟨⟨hs.value, fun he id hid hcch => ?_, fun other reason' span' hother hmem => ?_⟩,
      ⟨fun _ _ h => h, subset_append_left .., id, id⟩⟩
    · exact (hs.stopped he id hid hcch).imp (fun h => h) fun h => h.mono (subset_append_left ..)
    · rcases mem_append.mp hmem with hmem | hmem
      · exact hs.reported other reason' span' hother hmem
      · simp only [mem_singleton, ConstDiagnostic.invalidInitializer.injEq] at hmem
        exact absurd (hmem.1 ▸ hother) hown
  · exact ⟨hs, .refl s⟩

section OtherInner

variable {expression : ConstId → ConstExpr → Evaluator → Option ScalarValue × Evaluator}
  (hadm : m.Admitted among)
  (hexpr : ∀ {pending owner e ty s}, Typed m.type among e ty → Within m x among pending owner e →
    Good m x among pending s → Evaluated m x among pending owner e ty s (expression owner e s))
  (hother : ∀ {pending owner e s}, ¬among owner → (∀ id ∈ pending, ¬among id) → Good m x among pending s →
    Good m x among pending (expression owner e s).2 ∧ Grown m s (expression owner e s).2)
  {pending : List ConstId} {s : Evaluator} (hpend : ∀ id ∈ pending, ¬among id)
  (hs : Good m x among pending s)
include hadm hexpr hother hpend hs

/-- A constant outside of admitted evaluations. -/
theorem constantWith_other (id : ConstId) :
    Good m x among pending (Evaluator.constantWith m expression id s).2 ∧
      Grown m s (Evaluator.constantWith m expression id s).2 := by
  by_cases hid : among id
  · obtain ⟨h, _⟩ := constantWith_spec (x := x) (m := m) hid (fun hmem => absurd hid (hpend id hmem))
      (fun other hmem hother => absurd hother (hpend other hmem))
      (fun s hwith hs => hexpr (hadm id hid) hwith hs) hs
    exact ⟨h.good, h.grown⟩
  · unfold Evaluator.constantWith
    cases hcch : s.cache id with
    | some value => exact ⟨hs, .refl s⟩
    | none =>
      have hinn : Good m x among (id :: pending) (expression id (m.initializer id) (s.insert id none)).2 ∧
          Grown m (s.insert id none) (expression id (m.initializer id) (s.insert id none)).2 := by
        refine hother hid (fun other hmem => ?_) (hs.insert_none id)
        rcases mem_cons.mp hmem with rfl | hmem
        · exact hid
        · exact hpend other hmem
      exact ⟨hinn.1.insert (fun h => absurd h hid) fun h => absurd h hid, hinn.2.insert hcch⟩

theorem expressionInner_other {owner : ConstId} (e : ConstExpr) (hown : ¬among owner) :
    Good m x among pending (Evaluator.expressionInner m expression owner e s).2 ∧
      Grown m s (Evaluator.expressionInner m expression owner e s).2 := by
  have hnone : Good m x among pending s ∧ Grown m s s := ⟨hs, .refl s⟩
  cases hscal : e.facts.scalar with
  | some value =>
    rw [Evaluator.expressionInner_scalar hscal]
    exact hnone
  | none =>
    cases e with
    | unit facts => unfold Evaluator.expressionInner; rw [hscal]; exact hnone
    | literal facts => unfold Evaluator.expressionInner; rw [hscal]; exact hnone
    | other facts => unfold Evaluator.expressionInner; rw [hscal]; exact hnone
    | name facts target =>
      cases target with
      | none => unfold Evaluator.expressionInner; rw [hscal]; exact hnone
      | some id =>
        change facts.scalar = none at hscal
        rw [Evaluator.expressionInner_name hscal]
        exact constantWith_other hadm hexpr hother hpend hs id
    | cast facts operand =>
      cases htgt : facts.ty with
      | none =>
        unfold Evaluator.expressionInner
        simp only [hscal, htgt]
        exact hnone
      | some target =>
        change facts.scalar = none at hscal
        rw [Evaluator.expressionInner_cast hscal htgt]
        have hopnd := hother (e := operand) hown hpend hs
        rcases hrun : expression owner operand s with ⟨_ | v, s'⟩ <;> rw [hrun] at hopnd <;> exact hopnd
    | unary facts op operand =>
      change facts.scalar = none at hscal
      rw [Evaluator.expressionInner_unary hscal]
      have hopnd := hother (e := operand) hown hpend hs
      rcases hrun : expression owner operand s with ⟨_ | v, s'⟩ <;> rw [hrun] at hopnd
      · exact hopnd
      · obtain ⟨hgood, hgrown⟩ := report_other hown hopnd.1
        exact ⟨hgood, hopnd.2.trans hgrown⟩
    | binary facts op lhs rhs =>
      change facts.scalar = none at hscal
      rw [Evaluator.expressionInner_binary hscal]
      have hleft := hother (e := lhs) hown hpend hs
      rcases hrun : expression owner lhs s with ⟨_ | l, s₁⟩ <;> rw [hrun] at hleft
      · exact hleft
      dsimp only
      split
      · exact hleft
      · have hrt := hother (e := rhs) hown hpend hleft.1
        rcases hrun₂ : expression owner rhs s₁ with ⟨_ | r, s₂⟩ <;> rw [hrun₂] at hrt
        · exact ⟨hrt.1, hleft.2.trans hrt.2⟩
        · obtain ⟨hgood, hgrown⟩ := report_other hown hrt.1
          exact ⟨hgood, (hleft.2.trans hrt.2).trans hgrown⟩

end OtherInner

/-- Other expressions, of constants that are not admitted, keep the invariant. -/
theorem expression_other (hadm : m.Admitted among) (room : Nat) : ∀ {pending : List ConstId} {owner : ConstId}
    {e : ConstExpr} {s : Evaluator}, ¬among owner → (∀ id ∈ pending, ¬among id) → Good m x among pending s →
    Good m x among pending (Evaluator.expression m room owner e s).2 ∧
      Grown m s (Evaluator.expression m room owner e s).2 := by
  induction room with
  | zero =>
    intro pending owner e s _ _ hs
    refine expression_enter (Q := fun result => Good m x among pending result.2 ∧ Grown m s result.2)
      (fun s' hen => ?_) fun room' s' hroom => by omega
    have hspec := enter_spec 0 e.facts.span hs
    rw [hen] at hspec
    exact ⟨hspec.1, hspec.2.1⟩
  | succ room ih =>
    intro pending owner e s hown hpend hs
    have hspec := enter_spec (room + 1) e.facts.span hs
    refine expression_enter (Q := fun result => Good m x among pending result.2 ∧ Grown m s result.2)
      (fun s' hen => ?_) fun room' s' hroom hen => ?_
    · rw [hen] at hspec
      exact ⟨hspec.1, hspec.2.1⟩
    · rw [hen] at hspec
      obtain rfl : room = room' := by omega
      obtain ⟨hgood, hgrown⟩ := expressionInner_other hadm (expression_spec hadm room) ih hpend hspec.1
        e hown
      exact ⟨hgood, hspec.2.1.trans hgrown⟩

/-! ## Queries -/

theorem good_new (steps : Nat) (exhausted : Bool) : Good m x among [] (.new steps exhausted) :=
  ⟨(fun _ _ _ h => by cases h), (fun _ _ _ h => by cases h), fun _ _ _ _ h => by cases h⟩

theorem cached_of_constantWith (expression : ConstId → ConstExpr → Evaluator → Option ScalarValue × Evaluator)
    (id : ConstId) (s : Evaluator) : ∃ v, (Evaluator.constantWith m expression id s).2.cache id = some v := by
  unfold Evaluator.constantWith
  cases hcch : s.cache id with
  | some value => exact ⟨value, hcch⟩
  | none => exact ⟨_, if_pos rfl⟩

/-- Queries keep the invariant, and answer each constant unless the budget is exhausted. -/
theorem constants_spec (hadm : m.Admitted among) (ids : List ConstId) : ∀ {s : Evaluator}, Good m x among [] s →
    Good m x among [] (Evaluator.constants m ids s) ∧ Grown m s (Evaluator.constants m ids s) ∧
      ((Evaluator.constants m ids s).exhausted = false →
        ∀ id ∈ ids, ∃ v, (Evaluator.constants m ids s).cache id = some v) := by
  induction ids with
  | nil => exact fun hs => ⟨hs, .refl _, fun _ id hid => by cases hid⟩
  | cons id ids ih =>
    intro s hs
    unfold Evaluator.constants
    split
    · rename_i he
      refine ⟨hs, .refl s, fun hfalse => ?_⟩
      rw [he] at hfalse
      cases hfalse
    · obtain ⟨hgood, hgrown⟩ := constantWith_other hadm (expression_spec hadm m.limits.maxDepth)
        (expression_other hadm m.limits.maxDepth) (fun _ h => by cases h) hs id
      obtain ⟨hgood', hgrown', hcchd⟩ := ih hgood
      refine ⟨hgood', hgrown.trans hgrown', fun he other hmem => ?_⟩
      rcases mem_cons.mp hmem with rfl | hmem
      · obtain ⟨v, hv⟩ := cached_of_constantWith (m := m) (Evaluator.expression m m.limits.maxDepth) other s
        exact ⟨v, hgrown'.cache other v hv⟩
      · exact hcchd he other hmem

/-! ## Agreement -/

/-- An admitted expression reads admitted constants. -/
theorem among_of_reads (h : x.Reads m.initializer e id) :
    ∀ {ty}, Typed m.type among e ty → among id := by
  have hnone : ∀ {facts : Facts} {value : ScalarValue}, facts.scalar = none → ¬facts.scalar = some value := by
    intro facts value hnone hsome
    rw [hnone] at hsome
    cases hsome
  induction h with
  | name hscal =>
    rintro ty (⟨hsome, _, _⟩ | ⟨_, hid, _⟩)
    · exact absurd hsome (hnone hscal)
    · exact hid
  | cast hscal _ ih =>
    intro ty hty
    cases hty with
    | scalar hsome => exact absurd hsome (hnone hscal)
    | cast _ hopnd => exact ih hopnd
  | unary hscal _ ih =>
    intro ty hty
    cases hty with
    | scalar hsome => exact absurd hsome (hnone hscal)
    | unary _ hopnd => exact ih hopnd
  | lhs hscal _ ih =>
    intro ty hty
    cases hty with
    | scalar hsome => exact absurd hsome (hnone hscal)
    | binary _ hlhs => exact ih hlhs
  | rhs hscal _ _ _ ih =>
    intro ty hty
    cases hty with
    | scalar hsome => exact absurd hsome (hnone hscal)
    | binary _ _ hrhs => exact ih hrhs

theorem among_of_needs (hadm : m.Admitted among) {id other : ConstId}
    (h : Relation.ReflTransGen (x.Needs m.initializer) id other) (hid : among id) : among other := by
  induction h with
  | refl => exact hid
  | tail _ hneeds ih => exact among_of_reads hneeds (hadm _ ih)

/-- A trap of a constant is one of every constant that needs it. -/
theorem trap_of_needs {id other : ConstId} (h : Relation.ReflTransGen (x.Needs m.initializer) id other)
    (ht : x.denote m.initializer (m.initializer other) = some (.error t)) :
    x.denote m.initializer (m.initializer id) = some (.error t) := by
  induction h using Relation.ReflTransGen.head_induction_on with
  | refl => exact ht
  | head hneeds _ ih => exact x.trap_of_reads m.initializer hneeds ih

/-- Scalars of one type are the same where their values are. -/
theorem value_injective (x : Execution H) {v w : ScalarValue} (hv : v.Valid) (hw : w.Valid) (hty : v.ty = w.ty)
    (h : x.value v = x.value w) : v = w := by
  rcases hv.cases with ⟨a, rfl⟩ | ⟨n, ty, rfl, hn⟩
  · rcases hw.cases with ⟨b, rfl⟩ | ⟨k, right, rfl, _⟩
    · rw [Execution.value_bool, Execution.value_bool] at h
      rw [Value.bool.inj h]
    · cases right <;> cases hty
  · rcases hw.cases with ⟨b, rfl⟩ | ⟨k, right, rfl, hk⟩
    · cases ty <;> cases hty
    · obtain rfl := builtinType_injective hty
      rw [Execution.value_integer, Execution.value_integer] at h
      rw [carrier_injective hn hk h]

variable (m x among) in
/-- Constants evaluated in some order, after some steps of validation, agree with their runs. -/
structure ConstantsAgree (ids : List ConstId) (steps : Nat) (exhausted : Bool) : Prop where
  /-- A value is that of a run, in the declared type, also when the budget is exhausted later. -/
  value : ∀ id v, among id → (evaluateConstants m ids steps exhausted).1 id = some v →
    v.Valid ∧ v.ty = m.type id ∧ x.Runs m.initializer (m.initializer id) (.ok (x.value v))
  /-- Within the budget, a constant whose run ends with a value has that value. -/
  complete : (evaluateConstants m ids steps exhausted).2.exhausted = false → ∀ id ∈ ids, among id →
    ∀ value, x.Runs m.initializer (m.initializer id) (.ok value) →
      ∃ v, (evaluateConstants m ids steps exhausted).1 id = some v ∧ x.value v = value
  /-- What is reported of a constant is why its run traps. -/
  reported : ∀ owner reason span, among owner →
    .invalidInitializer owner reason span ∈ (evaluateConstants m ids steps exhausted).2.diagnostics →
    x.Runs m.initializer (m.initializer owner) (.error (.runtime (trap reason)))
  /-- Within the budget, a run traps exactly where that was reported of the constant or of one that it
  needs, with the same reason. -/
  traps : (evaluateConstants m ids steps exhausted).2.exhausted = false → ∀ id ∈ ids, among id →
    (∀ reason, x.Runs m.initializer (m.initializer id) (.error (.runtime (trap reason))) ↔
      ∃ owner span, Relation.ReflTransGen (x.Needs m.initializer) id owner ∧
        .invalidInitializer owner reason span ∈ (evaluateConstants m ids steps exhausted).2.diagnostics) ∧
    ∀ t, x.Runs m.initializer (m.initializer id) (.error t) → ∃ reason, t = .runtime (trap reason)
  /-- A constant that needs itself has no value. -/
  cyclic : ∀ id, among id → Relation.TransGen (x.Needs m.initializer) id id →
    (evaluateConstants m ids steps exhausted).1 id = none
  /-- The right operand of a decided operator is not evaluated: the result is that of the left one. -/
  unread : ∀ room owner facts op lhs rhs s s₁ s₂ left, facts.scalar = none →
    Evaluator.enter m (room + 1) facts.span s = (true, s₁) →
    Evaluator.expression m room owner lhs s₁ = (some left, s₂) → op.decided left = true →
    Evaluator.expression m (room + 1) owner (.binary facts op lhs rhs) s = (some left, s₂)
  /-- Within the budget, the values are those of every other order. -/
  order : (evaluateConstants m ids steps exhausted).2.exhausted = false → ∀ ids' steps' exhausted',
    (evaluateConstants m ids' steps' exhausted').2.exhausted = false → ∀ id ∈ ids, id ∈ ids' → among id →
    (evaluateConstants m ids steps exhausted).1 id = (evaluateConstants m ids' steps' exhausted').1 id
  /-- Evaluation stays within the steps of the budget. -/
  steps : steps ≤ m.limits.maxSteps → (evaluateConstants m ids steps exhausted).2.steps ≤ m.limits.maxSteps

/-- The value of a query, and what it says of a run. -/
theorem evaluated_value (hadm : m.Admitted among) (x : Execution H) (ids : List ConstId) (steps : Nat)
    (exhausted : Bool) {v : ScalarValue} (hid : among id)
    (h : (evaluateConstants m ids steps exhausted).1 id = some v) : Has m x (m.initializer id) (m.type id) v := by
  obtain ⟨hgood, _, _⟩ := constants_spec hadm ids (good_new (x := x) steps exhausted)
  exact hgood.value id v hid (Option.join_eq_some_iff.mp h)

theorem evaluated_none (hadm : m.Admitted among) (x : Execution H)
    (hin : (evaluateConstants m ids steps exhausted).2.exhausted = false)
    (hmem : id ∈ ids) (hid : among id) (h : (evaluateConstants m ids steps exhausted).1 id = none) :
    Stopped m x among (evaluateConstants m ids steps exhausted).2.diagnostics id (m.initializer id) := by
  obtain ⟨hgood, _, hcchd⟩ := constants_spec hadm ids (good_new (x := x) steps exhausted)
  obtain ⟨v, hv⟩ := hcchd hin id hmem
  have hnone : v = none := by
    have hjoin : ((Evaluator.constants m ids (.new steps exhausted)).cache id).join = none := h
    rw [hv] at hjoin
    exact hjoin
  subst hnone
  rcases hgood.stopped hin id hid hv with hpend | hstop
  · cases hpend
  · exact hstop

theorem evaluated_complete (hadm : m.Admitted among) (x : Execution H)
    (hin : (evaluateConstants m ids steps exhausted).2.exhausted = false)
    (hmem : id ∈ ids) (hid : among id) {value : Value H}
    (hrun : x.denote m.initializer (m.initializer id) = some (.ok value)) :
    ∃ v, (evaluateConstants m ids steps exhausted).1 id = some v ∧ x.value v = value := by
  cases hv : (evaluateConstants m ids steps exhausted).1 id with
  | none =>
    obtain ⟨_, _, _, herr, _⟩ := evaluated_none hadm x hin hmem hid hv _ hrun
    cases herr
  | some v =>
    have hsame := (evaluated_value hadm x ids steps exhausted hid hv).run.symm.trans hrun
    exact ⟨v, rfl, Except.ok.inj (Option.some.inj hsame)⟩

/-- Constant evaluation agrees with execution, of every engine. -/
theorem constants_agree (hadmitted : m.Admitted among) (x : Execution H) (ids : List ConstId) (steps : Nat)
    (exhausted : Bool) : ConstantsAgree m x among ids steps exhausted := by
  obtain ⟨hgood, hgrown, _⟩ := constants_spec hadmitted ids (good_new (x := x) steps exhausted)
  refine ⟨?_, ?_, ?_, ?_, ?_, ?_, ?_, hgrown.steps⟩
  · intro id v hid hv
    obtain ⟨hvld, hty, hrun⟩ := evaluated_value hadmitted x ids steps exhausted hid hv
    exact ⟨hvld, hty, (x.denote_iff _).mp hrun⟩
  · exact fun hin id hmem hid value hrun =>
      evaluated_complete hadmitted x hin hmem hid ((x.denote_iff _).mpr hrun)
  · exact fun owner reason span hown hmem => (x.denote_iff _).mp (hgood.reported owner reason span hown hmem)
  · intro hin id hmem hid
    have hstop : ∀ t, x.Runs m.initializer (m.initializer id) (.error t) → ∃ reason owner span,
        t = .runtime (trap reason) ∧ Relation.ReflTransGen (x.Needs m.initializer) id owner ∧
          .invalidInitializer owner reason span ∈ (evaluateConstants m ids steps exhausted).2.diagnostics := by
      intro t ht
      have hrun := (x.denote_iff _).mpr ht
      cases hv : (evaluateConstants m ids steps exhausted).1 id with
      | none =>
        obtain ⟨reason, owner, span, herr, hneeds, _, hreport⟩ := evaluated_none hadmitted x hin hmem hid hv _ hrun
        exact ⟨reason, owner, span, Except.error.inj herr, hneeds, hreport⟩
      | some v =>
        have hsame := (evaluated_value hadmitted x ids steps exhausted hid hv).run.symm.trans hrun
        cases hsame
    refine ⟨fun reason => ⟨fun ht => ?_, ?_⟩, fun t ht => ?_⟩
    · obtain ⟨reason', owner, span, hreason, hneeds, hreport⟩ := hstop _ ht
      obtain rfl : reason = reason' := congrArg RuntimeError.message (VmError.runtime.inj hreason)
      exact ⟨owner, span, hneeds, hreport⟩
    · rintro ⟨owner, span, hneeds, hreport⟩
      have hown := among_of_needs hadmitted hneeds hid
      exact (x.denote_iff _).mp (trap_of_needs hneeds (hgood.reported owner reason span hown hreport))
    · obtain ⟨reason, _, _, hreason, _⟩ := hstop t ht
      exact ⟨reason, hreason⟩
  · intro id hid hneeds
    cases hv : (evaluateConstants m ids steps exhausted).1 id with
    | none => rfl
    | some v =>
      exact absurd (evaluated_value hadmitted x ids steps exhausted hid hv).run
        (x.not_runs_of_needs m.initializer hneeds _)
  · intro room owner facts op lhs rhs s s₁ s₂ left hscal hen hlhs hdcd
    rw [Evaluator.expression]
    simp only [ConstExpr.facts, hen]
    rw [Evaluator.expressionInner_binary hscal, hlhs]
    exact if_pos hdcd
  · intro hin ids' steps' exhausted' hin' id hmem hmem' hid
    have hsub : ∀ {ids ids' steps steps' exhausted exhausted'} {v : ScalarValue},
        (evaluateConstants m ids' steps' exhausted').2.exhausted = false → id ∈ ids' →
        (evaluateConstants m ids steps exhausted).1 id = some v →
        (evaluateConstants m ids' steps' exhausted').1 id = some v := by
      intro ids ids' steps steps' exhausted exhausted' v hin' hmem' hv
      obtain ⟨hvld, hty, hrun⟩ := evaluated_value hadmitted x ids steps exhausted hid hv
      obtain ⟨w, hw, hval⟩ := evaluated_complete hadmitted x hin' hmem' hid hrun
      obtain ⟨hvld', hty', _⟩ := evaluated_value hadmitted x ids' steps' exhausted' hid hw
      rw [hw, value_injective x hvld' hvld (hty'.trans hty.symm) hval]
    refine Option.ext fun v => ⟨hsub hin' hmem', hsub hin hmem⟩

end Evaluation

/-- `const A: u8 = 200 + 100; const B: i32 = A as i32;`, on a platform whose floats do not matter. -/
def overflowing : ConstModule where
  floats := ⟨fun _ a _ => a, fun _ a _ => a, fun _ _ _ => false, fun _ _ _ => false⟩
  conversions := ⟨fun _ => 0, fun _ => 0, fun _ => 0, fun _ => 0, fun _ => 0, fun _ => 0⟩
  limits := ⟨100000, 64⟩
  initializer
    | 0 => .binary ⟨⟨14, 23⟩, some .u8, none⟩ .add (.literal ⟨⟨14, 17⟩, some .u8, some (.integer 200 .u8)⟩)
        (.literal ⟨⟨20, 23⟩, some .u8, some (.integer 100 .u8)⟩)
    | _ => .cast ⟨⟨40, 48⟩, some .i32, none⟩ (.name ⟨⟨40, 41⟩, some .u8, none⟩ (some 0))
  type
    | 0 => .u8
    | _ => .i32

theorem constants_agree_overflowing :
    ConstantsAgree overflowing (⟨⟨overflowing.floats, overflowing.conversions⟩, id, .prepared⟩ : Execution String)
        (fun _ => True) [1, 0] 0 false ∧
      (evaluateConstants overflowing [1, 0] 0 false).2.diagnostics =
        [.invalidInitializer 0 "integer overflow" ⟨14, 23⟩] := by
  refine ⟨constants_agree ?_ _ _ _ _, by decide⟩
  rintro (_ | id) _
  · have hleft : (ScalarValue.integer 200 .u8).Valid := by exact rfl
    have hrt : (ScalarValue.integer 100 .u8).Valid := by exact rfl
    exact .binary rfl (.scalar rfl hleft rfl) (.scalar rfl hrt rfl) rfl rfl
  · exact .cast rfl (.name rfl trivial rfl) rfl (.inr rfl) rfl

end Kagari.Hir
