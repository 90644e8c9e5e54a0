import Kagari.Lib.Worklist

/-!
# Must-analyses over a flow graph

`Graph` is a control-flow graph whose blocks generate facts that are never taken back. The
equations (`equations`) give each block the facts that hold when it ends: those of every live
predecessor, and its own. `Walk` is a walk from the entry, with the blocks it has passed.

- `Graph.visit`: one turn of a worklist over the equations
- `into_sound`: a solution claims a fact only where every walk has generated it
- `into_complete`: the greatest solution claims every such fact
-/

namespace Lib.Dataflow

/-- A flow graph: its live blocks are those with an equation. -/
structure Graph (ι S : Type*) where
  entry : ι
  init : Set S
  live : Set ι
  preds : ι → Set ι
  gen : ι → Set S

variable {ι S : Type*}

variable {X : ι → Set S} {b : ι}

namespace Graph

variable (g : Graph ι S)

/-- What holds when a block starts. -/
def into (X : ι → Set S) (b : ι) : Set S :=
  {x | (b = g.entry → x ∈ g.init) ∧ ∀ p ∈ g.preds b, p ∈ g.live → x ∈ X p}

/-- What holds when a block ends, as one monotone operator on all blocks. -/
def equations : (ι → Set S) →o (ι → Set S) where
  toFun X b := {x | b ∈ g.live → x ∈ g.into X b ∨ x ∈ g.gen b}
  monotone' := by
    intro X Y hle b x hx hlive
    rcases hx hlive with hin | hgen
    · exact .inl ⟨hin.1, fun p hp hl => hle p (hin.2 p hp hl)⟩
    · exact .inr hgen

theorem mem_equations {x : S} :
    x ∈ g.equations X b ↔ (b ∈ g.live → x ∈ g.into X b ∨ x ∈ g.gen b) := Iff.rfl

/-- An equation reads only the live predecessors of its block. -/
theorem equations_update [DecidableEq ι] {b c : ι} {value : Set S}
    (h : c ∈ g.live → b ∉ g.preds c) :
    g.equations (Function.update X b value) c = g.equations X c := by
  ext x
  rw [mem_equations, mem_equations]
  refine forall_congr' (fun hl => or_congr (and_congr Iff.rfl ?_) Iff.rfl)
  refine forall_congr' (fun p => forall_congr' (fun hp => ?_))
  rw [Function.update_of_ne]
  rintro rfl
  exact h hl hp

/-- Settling one block: what was pending stays so, and so does what reads the block. -/
theorem visit [DecidableEq ι] {pending pending' : Set ι}
    (h : Descending g.equations X pending) (b : ι)
    (hoths : ∀ c ∈ pending, c ≠ b → c ∈ pending')
    (hrd : ∀ c ∈ g.live, b ∈ g.preds c → c ∈ pending') :
    Descending g.equations (Function.update X b (g.equations X b)) pending' := by
  refine h.lower b (fun c hc hp hmem => hp (hoths c hmem hc)) (fun c hp => ?_)
  exact g.equations_update (fun hl hpred => hp (hrd c hl hpred))

end Graph

/-- A walk along `edge` from `entry` that has come to a block, with the blocks it has passed. -/
inductive Walk (edge : ι → ι → Prop) (entry : ι) : ι → List ι → Prop
  | entry : Walk edge entry entry []
  | step {b c : ι} {trace : List ι} : Walk edge entry b trace → edge b c →
      Walk edge entry c (trace ++ [b])

section Walks

variable {g : Graph ι S} {edge : ι → ι → Prop}

/-- A fact that a solution claims was there from the start, or every walk has passed a block that
generates it. -/
theorem into_sound (hX : X = g.equations X)
    (hlive : ∀ b trace, Walk edge g.entry b trace → b ∈ g.live)
    (hpreds : ∀ b c, edge b c → c ≠ g.entry → b ∈ g.live → b ∈ g.preds c)
    {trace : List ι} (hwalk : Walk edge g.entry b trace) :
    ∀ x ∈ g.into X b, x ∈ g.init ∨ ∃ p ∈ trace, x ∈ g.gen p := by
  induction hwalk with
  | entry => exact fun x hx => .inl (hx.1 rfl)
  | @step b c trace hwalk hedge ih =>
    intro x hx
    by_cases hc : c = g.entry
    · exact .inl (hx.1 hc)
    · have hb : b ∈ g.live := hlive b trace hwalk
      have hout : x ∈ g.equations X b := by
        rw [← hX]
        exact hx.2 b (hpreds b c hedge hc hb) hb
      rcases hout hb with hin | hgen
      · rcases ih x hin with hinit | ⟨p, hp, hgen⟩
        · exact .inl hinit
        · exact .inr ⟨p, by simp [hp], hgen⟩
      · exact .inr ⟨b, by simp, hgen⟩

/-- The greatest solution claims what every walk has generated. -/
theorem into_complete
    (hpreds : ∀ b c, c ∈ g.live → b ∈ g.preds c → b ∈ g.live → edge b c)
    (hb : b ∈ g.live) {x : S}
    (hx : ∀ trace, Walk edge g.entry b trace → x ∈ g.init ∨ ∃ p ∈ trace, x ∈ g.gen p) :
    x ∈ g.into g.equations.gfp b := by
  -- what every walk has generated when it leaves a block is a post-fixed point
  let Y : ι → Set S := fun c =>
    {y | c ∈ g.live → ∀ trace, Walk edge g.entry c trace →
      y ∈ g.init ∨ ∃ p ∈ trace ++ [c], y ∈ g.gen p}
  have hinto : ∀ c ∈ g.live, ∀ y, (∀ trace, Walk edge g.entry c trace →
      y ∈ g.init ∨ ∃ p ∈ trace, y ∈ g.gen p) → y ∈ g.into Y c := by
    intro c hc y hy
    refine ⟨fun hce => ?_, fun p hp hpl _ trace hwalk => hy _ (hwalk.step (hpreds p c hc hp hpl))⟩
    subst hce
    rcases hy [] .entry with hinit | ⟨p, hp, -⟩
    · exact hinit
    · cases hp
  have hpost : Y ≤ g.equations Y := by
    intro c y hy hc
    by_cases hgen : y ∈ g.gen c
    · exact .inr hgen
    · refine .inl (hinto c hc y (fun trace hwalk => ?_))
      rcases hy hc trace hwalk with hinit | ⟨p, hp, hyp⟩
      · exact .inl hinit
      · rcases List.mem_append.mp hp with hp | hp
        · exact .inr ⟨p, hp, hyp⟩
        · rw [List.mem_singleton.mp hp] at hyp
          exact absurd hyp hgen
  have hle : Y ≤ g.equations.gfp := g.equations.le_gfp hpost
  have hY := hinto b hb x hx
  exact ⟨hY.1, fun p hp hl => hle p (hY.2 p hp hl)⟩

end Walks

end Lib.Dataflow
