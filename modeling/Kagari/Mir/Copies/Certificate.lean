import Kagari.Mir.Copies.Scan
import Kagari.Mir.Machine

/-!
# What a run of the copy pass leaves

`Certificate` is all that the soundness proof needs to know about the facts and aliases of a run,
and `Simplified` how the new function is made from them. `simplifyFunction_spec` reads both off the
pass, one loop at a time.
-/

namespace Kagari.Mir

open Lib Function List Option

variable (table : TempId → MirValue)

section Certificate

variable {P : Type}

/-- The facts and aliases of a run fit the function. -/
structure Certificate (f : MirFunction P) (definitions : TempId → Nat) (starts : BlockId → Scan)
    (aliases : TempId → MirValue) : Prop where
  single : SingleDefinitions f definitions
  constants : ∀ b < f.blocks.length, (starts b).constants = []
  facts : ∀ b < f.blocks.length, ∀ l value, (starts b).locals.getD l none = some value →
    b ≠ f.entry ∧ ∀ p, b ∈ f.successorsAt p →
      (scanAt f definitions starts p (f.rowsAt p).length).locals.getD l none = some value
  seen : ∀ b i t, i < (f.rowsAt b).length → ∀ k, k = i ∨ k = i + 1 →
    (scanAt f definitions starts b k).aliases t = f.ownValue t ∨
      (scanAt f definitions starts b k).aliases t = aliases t
  changed : ∀ t, aliases t = f.ownValue t ∨ ∃ b i, i < (f.rowsAt b).length ∧
    (scanAt f definitions starts b i).aliases t = f.ownValue t ∧
    (scanAt f definitions starts b (i + 1)).aliases t = aliases t

/-! ## Counting definitions -/

def Instruction.defines (t : TempId) (i : Instruction P) : Bool :=
  i.output.any (fun dst => dst.temp == t)

theorem countDefinitions_spec (code : List (Instruction P)) : ∀ definitions,
    Ensures (countDefinitions code definitions) (fun out =>
      ∀ t, out t = definitions t + code.countP (·.defines t)) := by
  induction code with
  | nil => exact fun definitions => .pure (by simp)
  | cons i code ih =>
    intro definitions
    refine .seq ((ih _).mono (fun out hout t => ?_))
    rw [hout t, countP_cons]
    cases hdst : i.output with
    | none => simp [Instruction.defines, hdst]
    | some dst =>
      by_cases ht : t = dst.temp
      · subst ht
        simp [Instruction.defines, hdst]
        omega
      · simp [Instruction.defines, hdst, update_of_ne ht, Ne.symm ht]

/-- In a list of lists, what is counted at most once is at one place only. -/
theorem eq_of_countP_flatten {α : Type} {p : α → Bool} (lists : List (List α)) :
    lists.flatten.countP p ≤ 1 → ∀ {b i b' i' : Nat} {x y : α},
      (lists[b]?.bind (·[i]?)) = some x → p x → (lists[b']?.bind (·[i']?)) = some y → p y →
      (b, i) = (b', i') := by
  have hmem : ∀ {lists : List (List α)} {b i : Nat} {x : α},
      (lists[b]?.bind (·[i]?)) = some x → p x → 0 < lists.flatten.countP p := by
    intro lists b i x hx hp
    obtain ⟨l, hl, hx⟩ := bind_eq_some_iff.mp hx
    exact countP_pos_iff.mpr ⟨x, mem_flatten.mpr ⟨l, mem_of_getElem? hl,
      mem_of_getElem? hx⟩, hp⟩
  have hlist : ∀ (l : List α), l.countP p ≤ 1 → ∀ {i i' : Nat} {x y : α}, l[i]? = some x → p x →
      l[i']? = some y → p y → i = i' := by
    intro l
    induction l with
    | nil => simp
    | cons a l ih =>
      intro hcnt i i' x y hx hpx hy hpy
      have hpos : ∀ {k : Nat} {z : α}, l[k]? = some z → p z → 0 < l.countP p :=
        fun hz hpz => countP_pos_iff.mpr ⟨_, mem_of_getElem? hz, hpz⟩
      rw [countP_cons] at hcnt
      rcases i with _ | i <;> rcases i' with _ | i'
      · rfl
      · obtain rfl : a = x := by simpa using hx
        have := hpos hy hpy
        simp only [hpx, if_true] at hcnt
        omega
      · obtain rfl : a = y := by simpa using hy
        have := hpos hx hpx
        simp only [hpy, if_true] at hcnt
        omega
      · rw [ih (by omega) hx hpx hy hpy]
  induction lists with
  | nil => simp
  | cons l lists ih =>
    intro hcnt b i b' i' x y hx hpx hy hpy
    rw [flatten_cons, countP_append] at hcnt
    have hpos : ∀ {k : Nat} {z : α}, l[k]? = some z → p z → 0 < l.countP p :=
      fun hz hpz => countP_pos_iff.mpr ⟨_, mem_of_getElem? hz, hpz⟩
    rcases b with _ | b <;> rcases b' with _ | b'
    · have hx' : l[i]? = some x := by simpa using hx
      have hy' : l[i']? = some y := by simpa using hy
      rw [hlist l (by omega) hx' hpx hy' hpy]
    · have h1 := hpos (by simpa using hx) hpx
      have h2 := hmem (by simpa using hy) hpy
      omega
    · have h1 := hpos (by simpa using hy) hpy
      have h2 := hmem (by simpa using hx) hpx
      omega
    · have heq := ih (by omega) (by simpa using hx) hpx (by simpa using hy) hpy
      rw [Prod.mk.injEq] at heq ⊢
      exact ⟨by rw [heq.1], heq.2⟩

variable {f : MirFunction P}

theorem writes_defines (h : f.Aligned) {t : TempId} {p : Point}
    (hw : Writes f t p) : ∃ i, ((f.blocks.map (·.instructions))[p.1]?.bind (·[p.2]?)) = some i ∧
      i.defines t = true := by
  obtain ⟨row, v, hrow, hout, hv⟩ := hw
  refine ⟨row.instruction, ?_, by simp [Instruction.defines, hout, hv]⟩
  cases hb : f.blocks[p.1]? with
  | none => simp [MirFunction.rowsAt, hb] at hrow
  | some block =>
    rw [getElem?_map, hb, map_some, bind_some,
      BasicBlock.instructions_eq (h block (mem_of_getElem? hb)), getElem?_map]
    have hrow' : block.rows[p.2]? = some row := by simpa [MirFunction.rowsAt, hb] using hrow
    rw [hrow', map_some]

theorem singleDefinitions_of_count (h : f.Aligned) {definitions : TempId → Nat}
    (hcnt : ∀ t, definitions t = (f.blocks.flatMap (·.instructions)).countP (·.defines t)) :
    SingleDefinitions f definitions := by
  intro t hone p q hp hq
  obtain ⟨i, hi, hdi⟩ := writes_defines h hp
  obtain ⟨j, hj, hdj⟩ := writes_defines h hq
  refine eq_of_countP_flatten (p := (·.defines t)) (f.blocks.map (·.instructions)) ?_ hi hdi hj hdj
  rw [← flatMap_def, ← hcnt t, hone]

/-! ## Predecessors and the facts at a block's start -/

theorem pushPredecessors_spec (index : BlockId) (successors : List BlockId) : ∀ predecessors,
    Ensures (pushPredecessors index successors predecessors) (fun out =>
      ∀ b p, (p ∈ predecessors b ∨ (p = index ∧ b ∈ successors)) → p ∈ out b) := by
  induction successors with
  | nil => exact fun predecessors => .pure (by simp)
  | cons successor successors ih =>
    intro predecessors
    refine .seq ((ih _).mono (fun out hout b p hp => hout b p ?_))
    by_cases hb : b = successor
    · subst hb
      rw [update_self, mem_append, mem_singleton]
      rcases hp with hp | ⟨rfl, -⟩
      · exact .inl (.inl hp)
      · exact .inl (.inr rfl)
    · rw [update_of_ne hb]
      rcases hp with hp | ⟨rfl, hp⟩
      · exact .inl hp
      · exact .inr ⟨rfl, (mem_cons.mp hp).resolve_left hb⟩

theorem allPredecessors_spec (blocks : List (BasicBlock P)) : ∀ index predecessors,
    Ensures (allPredecessors blocks index predecessors) (fun out =>
      ∀ b p, (p ∈ predecessors b ∨ ∃ k block, blocks[k]? = some block ∧ p = index + k ∧
        b ∈ block.successors) → p ∈ out b) := by
  induction blocks with
  | nil => exact fun index predecessors => .pure (by simp)
  | cons block blocks ih =>
    intro index predecessors
    refine .bind (pushPredecessors_spec index _ predecessors) (fun pushed hpush => ?_)
    refine (ih _ _).mono (fun out hout b p hp => hout b p ?_)
    rcases hp with hp | ⟨k, block', hk, rfl, hb⟩
    · exact .inl (hpush b p (.inl hp))
    · rcases k with _ | k
      · obtain rfl : block = block' := by simpa using hk
        exact .inl (hpush b _ (.inr ⟨rfl, hb⟩))
      · exact .inr ⟨k, block', by simpa using hk, Nat.add_right_comm index k 1, hb⟩

theorem meetLocal_spec (candidate : Option MirValue) (l : LocalId) (incoming : List Facts) :
    Ensures (meetLocal candidate l incoming) (fun fact => ∀ value, fact = some value →
      candidate = some value ∧ ∀ facts ∈ incoming, facts.getD l none = some value) := by
  induction incoming with
  | nil => exact .pure (fun value h => ⟨h, by simp⟩)
  | cons facts incoming ih =>
    refine .seq ?_
    split
    · rename_i heq
      refine ih.mono (fun fact hfact value hval => ?_)
      obtain ⟨hcand, hrest⟩ := hfact value hval
      exact ⟨hcand, forall_mem_cons.mpr ⟨heq.trans hcand, hrest⟩⟩
    · exact .pure (by simp)

theorem meetLocals_spec (first : Facts) (incoming : List Facts) (locals : List LocalId) :
    Ensures (meetLocals first incoming locals) (fun facts => ∀ k value,
      facts.getD k none = some value →
      ∃ l, locals[k]? = some l ∧ ∀ out ∈ incoming, out.getD l none = some value) := by
  induction locals with
  | nil => exact .pure (by simp)
  | cons l locals ih =>
    refine .bind (meetLocal_spec _ _ _) (fun fact hfact => ?_)
    refine .bind ih (fun facts hfacts => .pure (fun k value hk => ?_))
    rcases k with _ | k
    · exact ⟨l, rfl, (hfact value (by simpa using hk)).2⟩
    · exact hfacts k value (by simpa using hk)

theorem mem_of_mapM {α β : Type} {g : α → Option β} : ∀ {l : List α} {out : List β},
    l.mapM g = some out → ∀ a ∈ l, ∃ b ∈ out, g a = some b := by
  intro l
  induction l with
  | nil => simp
  | cons a l ih =>
    intro out h
    rw [mapM_cons] at h
    obtain ⟨b, hb, h⟩ := bind_eq_some_iff.mp h
    obtain ⟨rest, hrest, h⟩ := bind_eq_some_iff.mp h
    cases h
    refine forall_mem_cons.mpr ⟨⟨b, by simp, hb⟩, fun a' ha' => ?_⟩
    obtain ⟨b', hb', heq⟩ := ih hrest a' ha'
    exact ⟨b', by simp [hb'], heq⟩

/-- A fact at the start of a block is a fact at the end of every predecessor. -/
theorem entryFacts_spec (f : MirFunction P) (predecessors : BlockId → List BlockId)
    (outgoing : BlockId → Option Facts) (index : BlockId) :
    Ensures (entryFacts f predecessors outgoing index) (fun facts => ∀ l value,
      facts.getD l none = some value → index ≠ f.entry ∧ ∀ p ∈ predecessors index,
        ∃ out, outgoing p = some out ∧ out.getD l none = some value) := by
  have hnone : ∀ {Q : LocalId → MirValue → Prop},
      Ensures (pure (List.replicate f.locals.length none) : PassM Facts) (fun facts => ∀ l value,
        facts.getD l none = some value → Q l value) :=
    Ensures.pure (fun l value h => by rw [getD_replicate_none] at h; cases h)
  unfold entryFacts
  split
  · exact hnone
  · rename_i hent
    split
    · exact hnone
    · exact hnone
    · rename_i first rest hall
      refine (meetLocals_spec _ _ _).mono (fun facts hfacts l value hl => ⟨hent, fun p hp => ?_⟩)
      obtain ⟨l', hl', hmeet⟩ := hfacts l value hl
      obtain ⟨out, hout, heq⟩ := mem_of_mapM hall p hp
      obtain rfl : l = l' := by
        rw [List.getElem?_range (by simpa using (List.getElem?_eq_some_iff.mp hl').1)] at hl'
        exact some.inj hl'
      exact ⟨out, heq, hmeet out hout⟩

/-! ## The blocks one after another -/

section Blocks

variable (f : MirFunction P) (definitions : TempId → Nat) (predecessors : BlockId → List BlockId)

/-- The pass has scanned the blocks in `past`. -/
structure Scanning (past : List BlockId) (state : Forwarding P) (starts : BlockId → Scan) : Prop where
  blocks : ∀ b, state.blocks[b]? = (f.blocks[b]?).map (fun block =>
    if b ∈ past then block.withRows (keptRows f definitions block.rows (starts b)) else block)
  outgoing : ∀ b facts, state.outgoing b = some facts →
    b ∈ past ∧ facts = (scanTo f definitions (starts b) (f.rowsAt b)).locals
  facts : ∀ b ∈ past, ∀ l value, (starts b).locals.getD l none = some value →
    b ≠ f.entry ∧ ∀ p ∈ predecessors b, p ∈ past ∧
      (scanTo f definitions (starts p) (f.rowsAt p)).locals.getD l none = some value
  constants : ∀ b ∈ past, (starts b).constants = []
  tracked : Tracked f definitions starts (fun p => p.1 ∈ past) state.aliases

variable {f definitions predecessors}

/-- One more block. -/
theorem Scanning.block {past : List BlockId} {state : Forwarding P} {starts : BlockId → Scan}
    (hsing : SingleDefinitions f definitions)
    (h : Scanning f definitions predecessors past state starts) {index : BlockId}
    (hnew : index ∉ past) {block : BasicBlock P} (hblk : f.blocks[index]? = some block)
    (first : Scan) (haliases : first.aliases = state.aliases) (hcsts : first.constants = [])
    (hfacts : ∀ l value, first.locals.getD l none = some value → index ≠ f.entry ∧
      ∀ p ∈ predecessors index, ∃ out, state.outgoing p = some out ∧
        out.getD l none = some value) (statistics : PassStatistics) :
    Scanning f definitions predecessors (past ++ [index])
      { aliases := (scanTo f definitions first block.rows).aliases
        outgoing := update state.outgoing index
          (some (scanTo f definitions first block.rows).locals)
        blocks := state.blocks.set index (block.withRows (keptRows f definitions block.rows first))
        statistics } (update starts index first) := by
  have hrows : f.rowsAt index = block.rows := by simp [MirFunction.rowsAt, hblk]
  have hst : update starts index first index = first := update_self _ _ _
  have hkeep : ∀ b ∈ past, update starts index first b = starts b :=
    fun b hb => update_of_ne (ne_of_mem_of_not_mem hb hnew) _ _
  refine ⟨fun b => ?_, fun b facts hb => ?_, fun b hb l value hl => ?_, fun b hb => ?_, ?_⟩
  · by_cases hb : b = index
    · subst hb
      have hlt : b < state.blocks.length := by
        have hget := h.blocks b
        rw [hblk] at hget
        exact (List.getElem?_eq_some_iff.mp hget).1
      simp [hlt, hblk]
    · rw [List.getElem?_set_ne (Ne.symm hb), h.blocks b]
      simp [hb]
  · dsimp only at hb
    by_cases hi : b = index
    · subst hi
      rw [update_self] at hb
      rw [update_self, hrows]
      exact ⟨by simp, (some.inj hb).symm⟩
    · rw [update_of_ne hi] at hb
      obtain ⟨hpast, heq⟩ := h.outgoing b facts hb
      rw [hkeep b hpast]
      exact ⟨by simp [hpast], heq⟩
  · rcases List.mem_append.mp hb with hb | hb
    · rw [hkeep b hb] at hl
      obtain ⟨hent, hpreds⟩ := h.facts b hb l value hl
      refine ⟨hent, fun p hp => ?_⟩
      obtain ⟨hpast, heq⟩ := hpreds p hp
      rw [hkeep p hpast]
      exact ⟨by simp [hpast], heq⟩
    · obtain rfl := List.mem_singleton.mp hb
      rw [hst] at hl
      obtain ⟨hent, hpreds⟩ := hfacts l value hl
      refine ⟨hent, fun p hp => ?_⟩
      obtain ⟨out, hout, heq⟩ := hpreds p hp
      obtain ⟨hpast, rfl⟩ := h.outgoing p out hout
      rw [hkeep p hpast]
      exact ⟨by simp [hpast], heq⟩
  · rcases List.mem_append.mp hb with hb | hb
    · rw [hkeep b hb]
      exact h.constants b hb
    · obtain rfl := List.mem_singleton.mp hb
      rw [hst]
      exact hcsts
  · have hpast := h.tracked.congr (update starts index first)
      (fun b _ hb => (hkeep b hb).symm)
    have hfst : Tracked f definitions (update starts index first)
        (fun p => p.1 ∈ past) (update starts index first index).aliases := by
      rw [hst, haliases]
      exact hpast
    have hall := hfst.block hsing (fun _ => hnew)
    rw [hst, hrows] at hall
    refine hall.weaken (fun b i _ => ?_)
    simp

theorem scanBlocks_spec (hsing : SingleDefinitions f definitions) (order : List BlockId) :
    ∀ (past : List BlockId) (state : Forwarding P) (starts : BlockId → Scan),
      (past ++ order).Nodup → (∀ b ∈ order, b < f.blocks.length) →
      Scanning f definitions predecessors past state starts →
      Ensures (scanBlocks f definitions predecessors order state) (fun out =>
        ∃ starts, Scanning f definitions predecessors (past ++ order) out starts) := by
  induction order with
  | nil =>
    intro past state starts _ _ h
    exact .pure ⟨starts, by simpa using h⟩
  | cons index order ih =>
    intro past state starts hnd hrng h
    refine .seq ?_
    refine .bind (entryFacts_spec f predecessors state.outgoing index) (fun facts hfacts => ?_)
    have hnew : index ∉ past := by
      intro hmem
      exact (nodup_append.mp hnd).2.2 index hmem index (by simp) rfl
    obtain ⟨block, hblk⟩ : ∃ block, f.blocks[index]? = some block :=
      ⟨_, getElem?_eq_getElem (hrng index (by simp))⟩
    have hget : state.blocks[index]? = some block := by
      rw [h.blocks index, hblk]
      simp [hnew]
    rw [hget]
    refine .bind (scanRows_spec f definitions block.rows _) ?_
    rintro _ rfl
    have hnext := h.block hsing hnew hblk
      { aliases := state.aliases, locals := facts, constants := []
        statistics := state.statistics } rfl rfl hfacts
    have heq : past ++ index :: order = past ++ [index] ++ order := by simp
    rw [heq] at hnd ⊢
    exact ih _ _ _ hnd (fun b hb => hrng b (by simp [hb])) (hnext _)

end Blocks

/-! ## Aliases of aliases -/

/-- One or more aliases lead from a temporary to a value. -/
inductive Chain (aliases : TempId → MirValue) (t : TempId) : MirValue → Prop
  | one : Chain aliases t (aliases t)
  | more {v : MirValue} : Chain aliases t v → Chain aliases t (aliases v.temp)

section Resolve

variable {aliases : TempId → MirValue}

theorem Chain.trans {t : TempId} {v w : MirValue} (h : Chain aliases t v)
    (h' : Chain aliases v.temp w) : Chain aliases t w := by
  induction h' with
  | one => exact h.more
  | more _ ih => exact ih.more

/-- A value that is its own alias. -/
def Final (aliases : TempId → MirValue) (v : MirValue) : Prop := (aliases v.temp).temp = v.temp

/-- A table with some of the aliases resolved. -/
structure Resolving (aliases table : TempId → MirValue) : Prop where
  chain : ∀ t, Chain aliases t (table t)
  final : ∀ v : MirValue, Final table v ↔ Final aliases v

variable {table : TempId → MirValue}

theorem resolveLoop_spec (h : Resolving aliases table) (fuel : Nat) :
    ∀ (t : TempId) (v : MirValue), Chain aliases t v →
      Ensures (resolveLoop table fuel v) (fun out => Chain aliases t out ∧ Final table out) := by
  induction fuel with
  | zero =>
    intro t v hv
    unfold resolveLoop
    split
    · rename_i hfin
      exact .pure ⟨hv, hfin⟩
    · exact .bind Ensures.any (fun _ _ => .throw)
  | succ fuel ih =>
    intro t v hv
    unfold resolveLoop
    split
    · rename_i hfin
      exact .pure ⟨hv, hfin⟩
    · exact .seq (ih t _ (hv.trans (h.chain v.temp)))

/-- Resolving one alias changes no value that is its own alias. -/
theorem Resolving.update (h : Resolving aliases table) {t : TempId}
    {v : MirValue} (hchn : Chain aliases t v) (hfin : Final table v)
    (hown : Final table ⟨t, v.ty⟩ → v.temp = t) :
    Resolving aliases (update table t v) := by
  refine ⟨fun u => ?_, fun w => ?_⟩
  · by_cases hu : u = t
    · subst hu
      rw [update_self]
      exact hchn
    · rw [update_of_ne hu]
      exact h.chain u
  · rw [← h.final w]
    unfold Final at *
    by_cases hw : w.temp = t
    · subst hw
      rw [update_self]
      constructor
      · intro heq
        rw [heq] at hfin
        exact hfin
      · exact hown
    · rw [update_of_ne hw]

theorem resolveLoop_final {v : MirValue} (h : Final table v) (fuel : Nat) :
    Ensures (resolveLoop table fuel v) (fun out => out = v) := by
  unfold resolveLoop
  unfold Final at h
  cases fuel <;>
  · rw [if_pos h]
    exact .pure rfl

theorem resolveAliases_spec (fuel : Nat) (indices : List TempId) : ∀ table,
    Resolving aliases table → Ensures (resolveAliases fuel indices table) (fun out =>
      Resolving aliases out ∧
        ∀ t, t ∈ indices ∨ Final aliases (table t) → Final aliases (out t)) := by
  induction indices with
  | nil => exact fun table h => .pure ⟨h, by simp⟩
  | cons index indices ih =>
    intro table h
    have hval : Ensures (resolveLoop table fuel (table index)) (fun v =>
        Chain aliases index v ∧ Final table v ∧ (Final table ⟨index, v.ty⟩ → v.temp = index)) := by
      by_cases hown : (table index).temp = index
      · have hfin : Final table (table index) := by
          unfold Final
          rw [hown, hown]
        refine (resolveLoop_final hfin fuel).mono ?_
        rintro _ rfl
        exact ⟨h.chain index, hfin, fun _ => hown⟩
      · refine (resolveLoop_spec h fuel index _ (h.chain index)).mono ?_
        rintro v ⟨hchn, hfin⟩
        exact ⟨hchn, hfin, fun heq => absurd heq hown⟩
    refine .bind hval ?_
    rintro v ⟨hchn, hfin, hown⟩
    refine (ih _ (h.update hchn hfin hown)).mono ?_
    rintro out ⟨hout, hdone⟩
    refine ⟨hout, fun t ht => hdone t ?_⟩
    by_cases heq : t = index
    · subst heq
      rw [update_self]
      exact .inr ((h.final v).mp hfin)
    · rw [update_of_ne heq]
      rcases ht with ht | ht
      · exact .inl ((mem_cons.mp ht).resolve_left heq)
      · exact .inr ht

end Resolve

/-! ## The new function -/

theorem rewriteRows_spec (rows : List (Row P)) :
    Ensures (rewriteRows table rows) (fun out => out = rows.map (·.rewrite table)) := by
  induction rows with
  | nil => exact .pure rfl
  | cons row rows ih =>
    refine .seq (.bind ih ?_)
    rintro _ rfl
    exact .pure rfl

/-- The last rewriting of a block. -/
def BasicBlock.rewrite (table : TempId → MirValue) (block : BasicBlock P) : BasicBlock P :=
  { block.withRows (block.rows.map (·.rewrite table)) with
    terminator := block.terminator.map (·.rewriteInput (aliased table)) }

theorem rewriteBlocks_spec (blocks : List (BasicBlock P)) :
    Ensures (rewriteBlocks table blocks) (fun out => out = blocks.map (·.rewrite table)) := by
  induction blocks with
  | nil => exact .pure rfl
  | cons block blocks ih =>
    refine .bind (rewriteRows_spec table block.rows) ?_
    rintro _ rfl
    refine .seq (.bind ih ?_)
    rintro _ rfl
    exact .pure rfl

@[simp] theorem BasicBlock.rows_rewrite (block : BasicBlock P) :
    (block.rewrite table).rows = block.rows.map (·.rewrite table) :=
  BasicBlock.rows_withRows block _

/-- How the new function is made from the scans and the resolved aliases. -/
structure Simplified (f : MirFunction P) (definitions : TempId → Nat) (starts : BlockId → Scan)
    (aliases table : TempId → MirValue) (f' : MirFunction P) : Prop where
  chain : ∀ t, Chain aliases t (table t)
  final : ∀ t < f.temps.length, Final aliases (table t)
  entry : f'.entry = f.entry
  rows : ∀ b < f.blocks.length, f'.rowsAt b =
    (keptRows f definitions (f.rowsAt b) (starts b)).map (·.rewrite table)
  terminator : ∀ b, f'.terminatorAt b = (f.terminatorAt b).map (·.rewriteInput (aliased table))
  terminatorSpan : ∀ b, f'.terminatorSpanAt b = f.terminatorSpanAt b

theorem emissionOrder_nodup (f : MirFunction P) : f.emissionOrder.Nodup := by
  unfold MirFunction.emissionOrder
  rw [nodup_cons]
  refine ⟨by simp, ?_⟩
  exact nodup_range.filter _

theorem mem_emissionOrder (h : f.entry < f.blocks.length) (b : BlockId) :
    b ∈ f.emissionOrder ↔ b < f.blocks.length := by
  unfold MirFunction.emissionOrder
  rw [mem_cons, mem_filter, mem_range]
  constructor
  · rintro (rfl | ⟨hb, -⟩)
    · exact h
    · exact hb
  · intro hb
    by_cases heq : b = f.entry
    · exact .inl heq
    · exact .inr ⟨hb, by simpa using heq⟩

/-- Every run of the pass leaves a certificate and the function made from it. -/
theorem simplifyFunction_spec (f : MirFunction P) (h : f.Aligned) (hent : f.entry < f.blocks.length)
    (statistics : PassStatistics) :
    Ensures (simplifyFunction f statistics) (fun out => ∃ definitions starts aliases table,
      Certificate f definitions starts aliases ∧
        Simplified f definitions starts aliases table out.1) := by
  refine .seq ?_
  refine .bind (countDefinitions_spec _ _) (fun definitions hdefs => ?_)
  have hsing : SingleDefinitions f definitions :=
    singleDefinitions_of_count h (fun t => by rw [hdefs t, Nat.zero_add])
  refine .bind (allPredecessors_spec _ _ _) (fun predecessors hpredecessors => ?_)
  have hnothing : Scanning f definitions predecessors []
      { aliases := f.ownValue, outgoing := fun _ => none, blocks := f.blocks, statistics }
      (fun _ => { aliases := f.ownValue, locals := [], constants := [], statistics }) :=
    ⟨fun b => by simp, by simp, by simp, by simp, ⟨by simp, fun t => .inl rfl⟩⟩
  refine .bind (scanBlocks_spec hsing f.emissionOrder [] _ _ (emissionOrder_nodup f)
    (fun b hb => (mem_emissionOrder hent b).mp hb) hnothing) ?_
  rintro state ⟨starts, hscan⟩
  rw [nil_append] at hscan
  refine .bind Ensures.any (fun work _ => ?_)
  refine .bind (resolveAliases_spec _ _ state.aliases ⟨fun t => .one, fun _ => Iff.rfl⟩) ?_
  rintro table ⟨hrsvd, hfin⟩
  refine .bind (rewriteBlocks_spec _ _) ?_
  rintro _ rfl
  have hmem := fun b => mem_emissionOrder hent b
  have hall : ∀ b i, i < (f.rowsAt b).length → b ∈ f.emissionOrder := by
    intro b i hi
    rw [hmem]
    by_contra hb
    simp [MirFunction.rowsAt, getElem?_eq_none (Nat.le_of_not_lt hb)] at hi
  refine .pure ⟨definitions, starts, state.aliases, table,
    ⟨hsing, fun b hb => hscan.constants b ((hmem b).mpr hb), fun b hb l value hl => ?_,
      fun b i t hi => hscan.tracked.seen b i t (hall b i hi) hi, fun t => ?_⟩,
    ⟨hrsvd.chain, fun t ht => hfin t (.inl (mem_range.mpr ht)), rfl, fun b hb => ?_,
      fun b => ?_, fun b => ?_⟩⟩
  · obtain ⟨hne, hpreds⟩ := hscan.facts b ((hmem b).mpr hb) l value hl
    refine ⟨hne, fun p hp => ?_⟩
    unfold scanAt
    rw [take_length]
    refine (hpreds p (hpredecessors b p (.inr ?_))).2
    unfold MirFunction.successorsAt MirFunction.terminatorAt at hp
    cases hblk : f.blocks[p]? with
    | none => simp [hblk] at hp
    | some block => exact ⟨p, block, hblk, (Nat.zero_add p).symm, by simpa [hblk, BasicBlock.successors] using hp⟩
  · rcases hscan.tracked.changed t with heq | ⟨b, i, -, hi, hrest⟩
    · exact .inl heq
    · exact .inr ⟨b, i, hi, hrest⟩
  · have hblk := getElem?_eq_getElem hb
    simp [MirFunction.rowsAt, hscan.blocks b, hblk, (hmem b).mpr hb]
  · simp only [MirFunction.terminatorAt, getElem?_map, hscan.blocks b]
    cases f.blocks[b]? with
    | none => rfl
    | some block =>
      simp only [map_some, bind_some]
      split <;> rfl
  · simp only [MirFunction.terminatorSpanAt, getElem?_map, hscan.blocks b]
    cases f.blocks[b]? with
    | none => rfl
    | some block =>
      simp only [map_some, bind_some]
      split <;> rfl

end Certificate

end Kagari.Mir
