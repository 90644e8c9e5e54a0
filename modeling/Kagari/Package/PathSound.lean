import Kagari.Package.Path

/-!
# Portable paths are routes

A slashed path of names is read back as the steps down to it (`steps_slashed`), so `join` walks
(`join_ok`), `relative` is the route between two directories (`relative_eq`) and `locator` settles
(`locator_ok`). What holds of routes holds of paths (`portablePaths`).
-/

namespace Kagari.Package

open Lib.Route List

/-! ## Reading and writing components -/

/-- A component that is written: a name, or two dots. -/
def IsPart (part : Path) : Prop := part ≠ [] ∧ ∀ ch ∈ part, ch ≠ '/' ∧ foreign ch = false

theorem IsName.isPart {part : Path} (h : IsName part) : IsPart part := ⟨h.nonempty, h.portable⟩

theorem isPart_dots : IsPart dots := by
  refine ⟨by decide, fun ch hch => ?_⟩
  simp only [dots, mem_cons, not_mem_nil, or_false, or_self] at hch
  subst hch
  decide

variable {parts : List Path}

theorem mem_slashed {ch : Char} (h : ch ∈ slashed parts) :
    ch = '/' ∨ ∃ part ∈ parts, ch ∈ part := by
  induction parts with
  | nil => simp [slashed] at h
  | cons part parts ih =>
    cases parts with
    | nil =>
      rw [slashed, intercalate_singleton] at h
      exact .inr ⟨part, mem_singleton_self _, h⟩
    | cons next parts =>
      rw [slashed, intercalate_cons_cons, append_assoc, mem_append, mem_append,
        mem_singleton] at h
      rcases h with h | h | h
      · exact .inr ⟨part, mem_cons_self, h⟩
      · exact .inl h
      · rcases ih h with h | ⟨other, hother, h⟩
        · exact .inl h
        · exact .inr ⟨other, mem_cons_of_mem _ hother, h⟩

theorem slashed_ne_nil (hne : parts ≠ []) (h : ∀ part ∈ parts, IsPart part) :
    slashed parts ≠ [] := by
  obtain ⟨part, parts, rfl⟩ := exists_cons_of_ne_nil hne
  have hpart := (h part mem_cons_self).1
  cases parts with
  | nil => simpa [slashed] using hpart
  | cons next parts => simp [slashed, intercalate_cons_cons, hpart]

theorem forbidden_slashed (h : ∀ part ∈ parts, IsPart part) :
    forbidden (slashed parts) = false := by
  have hhead : (slashed parts).head? ≠ some '/' := by
    cases parts with
    | nil => simp [slashed]
    | cons part parts =>
      obtain ⟨hne, hport⟩ := h part mem_cons_self
      obtain ⟨ch, part, rfl⟩ := exists_cons_of_ne_nil hne
      have hch := (hport ch mem_cons_self).1
      cases parts with
      | nil => simpa [slashed] using hch
      | cons next parts => simpa [slashed, intercalate_cons_cons] using hch
  have hany : ∀ ch ∈ slashed parts, foreign ch = false := by
    intro ch hch
    rcases mem_slashed hch with rfl | ⟨part, hpart, hch⟩
    · decide
    · exact ((h part hpart).2 ch hch).2
  simp only [forbidden, Bool.or_eq_false_iff, beq_eq_false_iff_ne, any_eq_false,
    Bool.not_eq_true]
  exact ⟨hhead, hany⟩

theorem components_slashed (hne : parts ≠ []) (h : ∀ part ∈ parts, IsPart part) :
    components (slashed parts) = parts :=
  splitOn_intercalate '/' (fun part hpart hslash => ((h part hpart).2 '/' hslash).1 rfl) hne

theorem mem_components {path part : Path} (h : part ∈ components path) :
    ∀ ch ∈ part, ch ≠ '/' ∧ ch ∈ path := by
  induction path generalizing part with
  | nil =>
    have hpart : part = [] := by simpa [components] using h
    simp [hpart]
  | cons first path ih =>
    rw [components, splitOn_cons_eq_if_modifyHead] at h
    split at h
    · rcases mem_cons.mp h with rfl | h
      · simp
      · exact fun ch hch => (ih h ch hch).imp id (mem_cons_of_mem _)
    · rename_i hslash
      rw [beq_iff_eq] at hslash
      cases hpts : path.splitOn '/' with
      | nil => exact absurd hpts (splitOn_ne_nil _ _)
      | cons head parts =>
        rw [hpts, modifyHead_cons] at h
        have hih : ∀ part ∈ head :: parts, ∀ ch ∈ part, ch ≠ '/' ∧ ch ∈ path := by
          intro part hpart
          exact ih (by rwa [components, hpts])
        rcases mem_cons.mp h with rfl | h
        · intro ch hch
          rcases mem_cons.mp hch with rfl | hch
          · exact ⟨hslash, mem_cons_self⟩
          · exact (hih head mem_cons_self ch hch).imp id (mem_cons_of_mem _)
        · intro ch hch
          exact (hih part (mem_cons_of_mem _ h) ch hch).imp id (mem_cons_of_mem _)

/-- What a path steps down to are names. -/
theorem isName_of_step {path name : Path} (hpath : forbidden path = false)
    (h : .down name ∈ steps path) : IsName name := by
  obtain ⟨part, hpart, hstep⟩ := mem_filterMap.mp h
  obtain ⟨rfl, hnonempty, hdot, hdots⟩ := step_down hstep
  refine ⟨hnonempty, hdot, hdots, fun ch hch => ?_⟩
  obtain ⟨hslash, hmem⟩ := mem_components hpart ch hch
  simp only [forbidden, Bool.or_eq_false_iff, any_eq_false, Bool.not_eq_true] at hpath
  exact ⟨hslash, hpath.2 ch hmem⟩

/-! ## Up and down again -/

theorem map_text_form (height : Nat) (names : List Path) :
    (form height names).map text = List.replicate height dots ++ names := by
  rw [form, map_append, map_replicate, map_map]
  exact congrArg _ (map_id _)

variable {height : Nat} {origin : String} {path result : Path}

theorem isPart_form {names : List Path} (h : AreNames names) :
    ∀ part ∈ List.replicate height dots ++ names, IsPart part := by
  intro part hpart
  rcases mem_append.mp hpart with hpart | hpart
  · rw [eq_of_mem_replicate hpart]
    exact isPart_dots
  · exact (h part hpart).isPart

theorem filterMap_step {names : List Path} (h : AreNames names) :
    names.filterMap step = names.map Step.down := by
  induction names with
  | nil => rfl
  | cons name names ih =>
    rw [filterMap_cons_some (h name mem_cons_self).step, map_cons,
      ih fun other hother => h other (mem_cons_of_mem _ hother)]

/-- A path that goes up and then down names is read back. -/
theorem steps_slashed (height : Nat) {names : List Path} (h : AreNames names) :
    steps (slashed (List.replicate height dots ++ names)) = form height names := by
  by_cases hne : List.replicate height dots ++ names = []
  · obtain ⟨hheight, rfl⟩ := append_eq_nil_iff.mp hne
    rw [hne]
    simp only [replicate_eq_nil_iff] at hheight
    rw [hheight]
    rfl
  · rw [steps, components_slashed hne (isPart_form h), filterMap_append, filterMap_step h,
      filterMap_replicate_of_some step_dots]
    rfl

theorem steps_names {names : List Path} (h : AreNames names) :
    steps (slashed names) = names.map Step.down :=
  steps_slashed 0 h

theorem steps_append (path path' : Path) : steps (path ++ '/' :: path') = steps path ++ steps path' := by
  rw [steps, components, splitOn_append_cons_self, filterMap_append]
  rfl

/-! ## Joining -/

/-- A joined path is where the steps of both paths lead from the root. -/
theorem join_ok {base path result : Path} :
    join base path origin = .ok result ↔
      (path ≠ [] ∧ forbidden base = false ∧ forbidden path = false) ∧
        ∃ names, walk [] (steps base ++ steps path) = some names ∧ AreNames names ∧
          result = slashed names := by
  unfold join
  split
  · rename_i hbad
    simp only [Bool.or_eq_true, List.isEmpty_iff] at hbad
    simp only [reduceCtorEq, false_iff]
    rintro ⟨⟨hne, hbase, hpath⟩, -⟩
    simp_all
  · rename_i hgood
    simp only [Bool.or_eq_true, List.isEmpty_iff, not_or, Bool.not_eq_true] at hgood
    obtain ⟨⟨hne, hbase⟩, hpath⟩ := hgood
    have hnms : ∀ names, walk [] (steps base ++ steps path) = some names → AreNames names := by
      intro names hwalk name hname
      rcases mem_of_walk hwalk hname with hroot | hstep
      · cases hroot
      · rcases List.mem_append.mp hstep with hstep | hstep
        · exact isName_of_step hbase hstep
        · exact isName_of_step hpath hstep
    rw [joinParts_eq, List.filterMap_append, ← steps, ← steps]
    cases hwalk : walk [] (steps base ++ steps path) with
    | none => simp
    | some names =>
      simp only [bind, Except.bind, pure, Except.pure, Except.ok.injEq, Option.some.injEq]
      constructor
      · rintro rfl
        exact ⟨⟨hne, hbase, hpath⟩, names, rfl, hnms names hwalk, rfl⟩
      · rintro ⟨-, _, rfl, -, rfl⟩
        rfl

/-- A path that `join` returned. -/
def Normalized (path : Path) : Prop := ∃ base relative origin, join base relative origin = .ok path

theorem Normalized.names {path : Path} (h : Normalized path) :
    ∃ names, AreNames names ∧ path = slashed names := by
  obtain ⟨base, relative, origin, hjoin⟩ := h
  obtain ⟨-, names, -, hnms, rfl⟩ := join_ok.mp hjoin
  exact ⟨names, hnms, rfl⟩

/-- Some of the first components are two dots more often than they are names. -/
def Escapes (parts : List Path) : Prop :=
  ∃ first, first <+: parts ∧
    first.countP (fun part => part ≠ [] ∧ part ≠ dot ∧ part ≠ dots) < first.count dots

theorem ups_filterMap (parts : List Path) : ups (parts.filterMap step) = parts.count dots := by
  rw [ups, countP_filterMap, List.count]
  apply countP_congr
  intro part _
  by_cases hskip : part = [] ∨ part = dot
  · rw [step_skip hskip]
    rcases hskip with rfl | rfl <;> decide
  · by_cases hdots : part = dots
    · subst hdots
      decide
    · simp [step_name hskip hdots, hdots]

theorem downs_filterMap (parts : List Path) : downs (parts.filterMap step) =
    parts.countP (fun part => part ≠ [] ∧ part ≠ dot ∧ part ≠ dots) := by
  rw [downs, countP_filterMap]
  apply countP_congr
  intro part _
  by_cases hskip : part = [] ∨ part = dot
  · rw [step_skip hskip]
    rcases hskip with rfl | rfl <;> decide
  · by_cases hdots : part = dots
    · subst hdots
      decide
    · simp [step_name hskip hdots, hdots, not_or.mp hskip]

theorem climbs_filterMap (parts : List Path) : Climbs 0 (parts.filterMap step) ↔ Escapes parts := by
  constructor
  · rintro ⟨first, hfst, h⟩
    obtain ⟨parts', hpts, rfl⟩ := prefix_filterMap_iff.mp hfst
    rw [downs_filterMap, ups_filterMap, Nat.zero_add] at h
    exact ⟨parts', hpts, h⟩
  · rintro ⟨first, hfst, h⟩
    refine ⟨first.filterMap step, hfst.filterMap step, ?_⟩
    rwa [downs_filterMap, ups_filterMap, Nat.zero_add]

/-- `join` refuses the forbidden forms and what escapes the root, and nothing else. -/
theorem join_error (base path : Path) (origin : String) :
    (∃ error, join base path origin = .error error) ↔
      path = [] ∨ forbidden base = true ∨ forbidden path = true ∨
        Escapes (components base ++ components path) := by
  have hok : (∃ error, join base path origin = .error error) ↔
      ¬ ∃ result, join base path origin = .ok result := by
    cases join base path origin <;> simp
  have hwalk : Escapes (components base ++ components path) ↔
      walk [] (steps base ++ steps path) = none := by
    rw [walk_none, ← climbs_filterMap, filterMap_append]
    rfl
  rw [hok, hwalk]
  simp only [join_ok]
  constructor
  · intro h
    by_contra hnot
    simp only [not_or, Bool.not_eq_true] at hnot
    obtain ⟨hne, hbase, hpath, hsome⟩ := hnot
    obtain ⟨names, hnms⟩ := Option.ne_none_iff_exists'.mp hsome
    refine h ⟨slashed names, ⟨hne, hbase, hpath⟩, names, hnms, fun name hname => ?_, rfl⟩
    rcases mem_of_walk hnms hname with hroot | hstep
    · cases hroot
    · exact (mem_append.mp hstep).elim (isName_of_step hbase) (isName_of_step hpath)
  · rintro h ⟨result, ⟨hne, hbase, hpath⟩, names, hnms, -⟩
    simp_all

/-- Two joins are one: the second path behind the first. -/
theorem join_join {base path path' middle result : Path} {origin origin' : String}
    (h : join base path origin = .ok middle) (h' : join middle path' origin' = .ok result) :
    join base (path ++ '/' :: path') origin = .ok result := by
  obtain ⟨⟨hne, hbase, hpath⟩, names, hwalk, hnms, rfl⟩ := join_ok.mp h
  obtain ⟨⟨-, -, hpath'⟩, names', hwalk', hnms', rfl⟩ := join_ok.mp h'
  rw [steps_names hnms] at hwalk'
  have hforbidden : forbidden (path ++ '/' :: path') = false := by
    have hslash : foreign '/' = false := by decide
    simp only [forbidden, Bool.or_eq_false_iff] at hpath hpath' ⊢
    rw [head?_append_of_ne_nil _ hne, any_append, any_cons, hslash, hpath.2, hpath'.2]
    exact ⟨hpath.1, rfl⟩
  refine join_ok.mpr ⟨⟨by simp, hbase, hforbidden⟩, names', ?_, hnms', rfl⟩
  rw [steps_append, ← append_assoc, walk_append, hwalk, Option.bind_some]
  have hdown : walk [] (names.map Step.down ++ steps path') = walk names (steps path') := by
    rw [walk_append, walk_down]
    rfl
  rwa [hdown] at hwalk'

/-! ## Locators -/

theorem locator_ok :
    locator path origin = .ok result ↔
      forbidden path = false ∧ result = slashed ((settle [] (steps path)).map text) := by
  have hpts := locatorParts_eq [] (components path) (by simp)
  unfold locator
  rw [map_nil] at hpts
  rw [hpts, ← steps]
  split
  · rename_i hbad
    simp [hbad]
  · rename_i hgood
    rw [Bool.not_eq_true] at hgood
    simp only [Except.ok.injEq, hgood, true_and]
    exact eq_comm

/-- A locator leads up first, and then down names. -/
theorem locator_form (h : locator path origin = .ok result) :
    ∃ height names, AreNames names ∧ result = slashed (List.replicate height dots ++ names) := by
  obtain ⟨hpath, rfl⟩ := locator_ok.mp h
  obtain ⟨height, names, hsettle, hmem⟩ := settle_form 0 [] (steps path)
  refine ⟨height, names, fun name hname => ?_, by rw [← map_text_form, ← hsettle]; rfl⟩
  rcases hmem name hname with hnone | hstep
  · cases hnone
  · exact isName_of_step hpath hstep

theorem locator_slashed {names : List Path} (origin : String) (h : AreNames names) :
    locator (slashed (List.replicate height dots ++ names)) origin =
      .ok (slashed (List.replicate height dots ++ names)) := by
  refine locator_ok.mpr ⟨forbidden_slashed (isPart_form h), ?_⟩
  rw [steps_slashed height h, settle_self, map_text_form]

/-! ## From one directory to another -/

theorem filter_components {names : List Path} (h : AreNames names) :
    (components (slashed names)).filter (· ≠ []) = names := by
  by_cases hne : names = []
  · subst hne
    decide
  · rw [components_slashed hne fun name hname => (h name hname).isPart, filter_eq_self]
    intro name hname
    simpa using (h name hname).nonempty

theorem relative_eq {source target : List Path} (hsrc : AreNames source)
    (htgt : AreNames target) :
    relative (slashed source) (slashed target) =
      slashed (List.replicate (source.length - common source target) dots ++
        target.drop (common source target)) := by
  simp only [relative, filter_components hsrc, filter_components htgt, common]

theorem join_relative {source target : Path} (origin : String) (hsrc : Normalized source)
    (htgt : Normalized target) (hne : source ≠ target) :
    join source (relative source target) origin = .ok target := by
  obtain ⟨names, hnms, rfl⟩ := hsrc.names
  obtain ⟨names', hnms', rfl⟩ := htgt.names
  have hdrop : AreNames (names'.drop (common names names')) :=
    fun name hname => hnms' name (mem_of_mem_drop hname)
  have hrte := steps_slashed (names.length - common names names') hdrop
  rw [relative_eq hnms hnms']
  have hwalk : walk names (route names names') = some names' := walk_route names names'
  have hpts : List.replicate (names.length - common names names') dots ++
      names'.drop (common names names') ≠ [] := by
    intro hnil
    -- nothing to write is nothing to walk
    rw [← map_text_form, map_eq_nil_iff] at hnil
    rw [route, ← form, hnil, walk, Option.some.injEq] at hwalk
    exact hne (congrArg slashed hwalk)
  refine join_ok.mpr ⟨⟨slashed_ne_nil hpts (isPart_form hdrop),
    forbidden_slashed fun name hname => (hnms name hname).isPart,
    forbidden_slashed (isPart_form hdrop)⟩, names', ?_, hnms', rfl⟩
  rw [steps_names hnms, hrte, walk_append, walk_down]
  exact hwalk

theorem locator_relative {source target : Path} (origin : String) (hsrc : Normalized source)
    (htgt : Normalized target) :
    locator (relative source target) origin = .ok (relative source target) := by
  obtain ⟨names, hnms, rfl⟩ := hsrc.names
  obtain ⟨names', hnms', rfl⟩ := htgt.names
  rw [relative_eq hnms hnms']
  exact locator_slashed origin fun name hname => hnms' name (mem_of_mem_drop hname)

/-- Where a path does not leave the root, `locator` normalizes it as `join` does. -/
theorem locator_of_join (h : join [] path origin = .ok result) :
    locator path origin = .ok result := by
  obtain ⟨⟨-, -, hpath⟩, names, hwalk, hnms, rfl⟩ := join_ok.mp h
  refine locator_ok.mpr ⟨hpath, ?_⟩
  have hroot : walk [] (steps path) = some names := hwalk
  have hsettle := settle_walk hroot
  rw [map_nil] at hsettle
  rw [hsettle, map_map]
  exact congrArg slashed (map_id names).symm

/-- Portable paths: the way between two directories joins back to the second and is a locator
already; `join` refuses exactly the forbidden forms and what climbs above the root, leaves names
only, and two joins are one; `locator` is idempotent, goes up only at the start, and agrees with
`join` from the root. The root is the empty path, which has no names. -/
theorem portablePaths :
    (∀ source target origin, Normalized source → Normalized target → source ≠ target →
      join source (relative source target) origin = .ok target ∧
      locator (relative source target) origin = .ok (relative source target)) ∧
    (∀ base path origin, (∃ error, join base path origin = .error error) ↔
      path = [] ∨ forbidden base = true ∨ forbidden path = true ∨
        Escapes (components base ++ components path)) ∧
    (∀ base path origin result, join base path origin = .ok result →
      ∃ names, result = slashed names ∧ AreNames names) ∧
    (∀ base path path' origin middle result, join base path origin = .ok middle →
      join middle path' origin = .ok result → join base (path ++ '/' :: path') origin = .ok result) ∧
    (∀ path origin result, locator path origin = .ok result →
      locator result origin = .ok result ∧
      ∃ height names, result = slashed (List.replicate height dots ++ names) ∧ AreNames names) ∧
    ∀ path origin result, join [] path origin = .ok result → locator path origin = .ok result := by
  refine ⟨fun source target origin hsrc htgt hne => ⟨join_relative origin hsrc htgt hne,
    locator_relative origin hsrc htgt⟩, join_error, fun base path origin result h => ?_,
    fun base path path' origin middle result h h' => join_join h h', fun path origin result h => ?_,
    fun path origin result h => locator_of_join h⟩
  · obtain ⟨-, names, -, hnms, rfl⟩ := join_ok.mp h
    exact ⟨names, rfl, hnms⟩
  · obtain ⟨height, names, hnms, rfl⟩ := locator_form h
    exact ⟨locator_slashed origin hnms, height, names, rfl, hnms⟩

/-- From a directory to its sibling. -/
theorem portablePaths_sibling :
    relative ['a', '/', 'b'] ['a', '/', 'c'] = ['.', '.', '/', 'c'] ∧
      join ['a', '/', 'b'] ['.', '.', '/', 'c'] "lock" = .ok ['a', '/', 'c'] := by
  have hrel : relative ['a', '/', 'b'] ['a', '/', 'c'] = ['.', '.', '/', 'c'] := by decide
  have hsrc : Normalized ['a', '/', 'b'] := ⟨['a'], ['b'], "lock", by decide⟩
  have htgt : Normalized ['a', '/', 'c'] := ⟨['a'], ['.', '/', 'c', '/'], "lock", by decide⟩
  have := (portablePaths.1 _ _ "lock" hsrc htgt (by decide)).1
  rw [hrel] at this
  exact ⟨hrel, this⟩

end Kagari.Package
