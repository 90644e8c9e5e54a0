import Mathlib.Data.List.Nodup

/-!
# Doubly linked lists inside a table

Nodes are named by indices; `links` gives a node the index before it and the index after it. `Segment`
is a piece of such a list: it is entered at `head` from `previous`, its last node is `final`, and it
goes on at `next`. Writing a link at an end of a piece moves that end (`setNext`, `setPrevious`).
-/

namespace Lib

open List

variable {ι : Type} [DecidableEq ι]

def Segment (links : ι → Option (ι × ι)) : ι → List ι → ι → ι → ι → Prop
  | previous, [], head, final, next => head = next ∧ final = previous
  | previous, i :: rest, head, final, next =>
    head = i ∧ ∃ after, links i = some (previous, after) ∧ Segment links i rest after final next

namespace Segment

variable {links links' : ι → Option (ι × ι)} {previous head final next : ι} {chain : List ι}

omit [DecidableEq ι]

theorem append {left right : List ι} :
    Segment links previous (left ++ right) head final next ↔
      ∃ middle between, Segment links previous left head middle between ∧
        Segment links middle right between final next := by
  induction left generalizing previous head with
  | nil =>
    constructor
    · exact fun h => ⟨previous, head, ⟨rfl, rfl⟩, h⟩
    · rintro ⟨middle, between, ⟨rfl, rfl⟩, h⟩
      exact h
  | cons i left ih =>
    constructor
    · rintro ⟨rfl, after, hlnk, h⟩
      obtain ⟨middle, between, hleft, hrt⟩ := ih.mp h
      exact ⟨middle, between, ⟨rfl, after, hlnk, hleft⟩, hrt⟩
    · rintro ⟨middle, between, ⟨rfl, after, hlnk, hleft⟩, hrt⟩
      exact ⟨rfl, after, hlnk, ih.mpr ⟨middle, between, hleft, hrt⟩⟩

/-- A piece depends on the links of its nodes. -/
theorem congr (h : Segment links previous chain head final next)
    (hlnk : ∀ i ∈ chain, links' i = links i) : Segment links' previous chain head final next := by
  induction chain generalizing previous head with
  | nil => exact h
  | cons i chain ih =>
    obtain ⟨rfl, after, hlink, hrest⟩ := h
    refine ⟨rfl, after, (hlnk _ mem_cons_self).trans hlink, ih hrest fun j hj => ?_⟩
    exact hlnk j (mem_cons_of_mem _ hj)

theorem final_mem (h : Segment links previous chain head final next) :
    chain = [] ∧ head = next ∧ final = previous ∨ chain ≠ [] ∧ head ∈ chain ∧ final ∈ chain := by
  induction chain generalizing previous head with
  | nil => exact .inl ⟨rfl, h.1, h.2⟩
  | cons i chain ih =>
    obtain ⟨rfl, after, -, hrest⟩ := h
    refine .inr ⟨cons_ne_nil _ _, mem_cons_self, ?_⟩
    rcases ih hrest with ⟨-, -, rfl⟩ | ⟨-, -, hmem⟩
    · exact mem_cons_self
    · exact mem_cons_of_mem _ hmem

theorem links_of_mem (h : Segment links previous chain head final next) {i : ι} (hi : i ∈ chain) :
    ∃ before after, links i = some (before, after) := by
  induction chain generalizing previous head with
  | nil => cases hi
  | cons j chain ih =>
    obtain ⟨rfl, after, hlink, hrest⟩ := h
    rcases mem_cons.mp hi with rfl | hi
    · exact ⟨_, _, hlink⟩
    · exact ih hrest hi

end Segment

/-- The table with another link forward. -/
def linkNext (links : ι → Option (ι × ι)) (i next : ι) : ι → Option (ι × ι) :=
  Function.update links i ((links i).map fun link => (link.1, next))

/-- The table with another link back. -/
def linkPrevious (links : ι → Option (ι × ι)) (i previous : ι) : ι → Option (ι × ι) :=
  Function.update links i ((links i).map fun link => (previous, link.2))

namespace Segment

variable {links links' : ι → Option (ι × ι)} {previous head final next : ι} {chain : List ι}

/-- The last node of a piece leads elsewhere. -/
theorem setNext (h : Segment links previous chain head final next) (hnd : chain.Nodup)
    (hne : chain ≠ []) (other : ι) :
    Segment (linkNext links final other) previous chain head final other := by
  induction chain generalizing previous head with
  | nil => exact absurd rfl hne
  | cons i chain ih =>
    obtain ⟨rfl, after, hlink, hrest⟩ := h
    obtain ⟨hi, hnd⟩ := nodup_cons.mp hnd
    rcases hrest.final_mem with ⟨rfl, -, rfl⟩ | ⟨hne', -, hmem⟩
    · refine ⟨rfl, other, ?_, rfl, rfl⟩
      unfold linkNext
      rw [Function.update_self, hlink]
      rfl
    · refine ⟨rfl, after, ?_, ih hrest hnd hne'⟩
      unfold linkNext
      rw [Function.update_of_ne (ne_of_mem_of_not_mem hmem hi).symm, hlink]

/-- The first node of a piece is entered from elsewhere. -/
theorem setPrevious (h : Segment links previous chain head final next) (hnd : chain.Nodup)
    (hne : chain ≠ []) (other : ι) :
    Segment (linkPrevious links head other) other chain head final next := by
  cases chain with
  | nil => exact absurd rfl hne
  | cons i chain =>
    obtain ⟨rfl, after, hlink, hrest⟩ := h
    refine ⟨rfl, after, ?_, hrest.congr fun j hj => ?_⟩
    · unfold linkPrevious
      rw [Function.update_self, hlink]
      rfl
    · unfold linkPrevious
      rw [Function.update_of_ne (ne_of_mem_of_not_mem hj (nodup_cons.mp hnd).1)]

end Segment

/-- A whole list from `head`, ended by `null` on both sides. -/
structure Linked (links : ι → Option (ι × ι)) (null head : ι) (chain : List ι) : Prop where
  segment : ∃ final, Segment links null chain head final null
  nodup : chain.Nodup
  notNull : null ∉ chain

namespace Linked

variable {links links' : ι → Option (ι × ι)} {null head : ι} {chain : List ι}

omit [DecidableEq ι] in
theorem congr (h : Linked links null head chain) (hlnk : ∀ i ∈ chain, links' i = links i) :
    Linked links' null head chain := by
  obtain ⟨final, hseg⟩ := h.segment
  exact ⟨⟨final, hseg.congr hlnk⟩, h.nodup, h.notNull⟩

omit [DecidableEq ι] in
theorem head_null (h : Linked links null head chain) : head = null ↔ chain = [] := by
  obtain ⟨final, hseg⟩ := h.segment
  rcases hseg.final_mem with ⟨hnil, hhead, -⟩ | ⟨hne, hmem, -⟩
  · exact ⟨fun _ => hnil, fun _ => hhead⟩
  · exact ⟨fun heq => absurd (heq ▸ hmem) h.notNull, fun hnil => absurd hnil hne⟩

omit [DecidableEq ι] in
theorem head_mem (h : Linked links null head chain) (hhead : head ≠ null) : head ∈ chain := by
  obtain ⟨final, hseg⟩ := h.segment
  rcases hseg.final_mem with ⟨-, hnull, -⟩ | ⟨-, hmem, -⟩
  · exact absurd hnull hhead
  · exact hmem

/-- Taking a node out: its neighbours are linked to each other. -/
theorem unlink (h : Linked links null head chain) {i before after : ι} (hi : i ∈ chain)
    (hlnk : links i = some (before, after)) :
    let forward := if before = null then links else linkNext links before after
    Linked (if after = null then forward else linkPrevious forward after before) null
        (if before = null then after else head) (chain.erase i) ∧
      (before ≠ null → before ∈ chain) ∧ (after ≠ null → after ∈ chain) := by
  intro forward
  obtain ⟨final, hseg⟩ := h.segment
  obtain ⟨left, right, rfl⟩ := append_of_mem hi
  obtain ⟨middle, between, hleft, rfl, next, hlink, hrt⟩ := Segment.append.mp hseg
  obtain ⟨rfl, rfl⟩ : middle = before ∧ next = after := by simpa [hlink] using hlnk
  have hnd := nodup_append.mp h.nodup
  obtain ⟨hleftNodup, hrightNodup, hdisj⟩ := hnd
  obtain ⟨hi, hrightNodup⟩ := nodup_cons.mp hrightNodup
  have herase : (left ++ between :: right).erase between = left ++ right := by
    have hnot : between ∉ left := fun hmem => hdisj between hmem between mem_cons_self rfl
    rw [erase_append_right _ hnot, erase_cons_head]
  have hnull : ∀ j ∈ left ++ right, j ≠ null := by
    rintro j hj rfl
    refine h.notNull (mem_append.mpr ?_)
    exact (mem_append.mp hj).imp id (mem_cons_of_mem _)
  -- the left piece now goes on behind the node
  have hfst : Segment forward null left (if middle = null then next else head) middle next ∧
      Segment forward between right next final null ∧ (middle ≠ null → middle ∈ left) := by
    rcases hleft.final_mem with ⟨rfl, rfl, rfl⟩ | ⟨hne, -, hmem⟩
    · simp only [forward, if_true]
      exact ⟨⟨rfl, rfl⟩, hrt, fun h => absurd rfl h⟩
    · have hmid : middle ≠ null := hnull middle (mem_append_left _ hmem)
      simp only [forward, if_neg hmid]
      refine ⟨hleft.setNext hleftNodup hne next, hrt.congr fun j hj => ?_, fun _ => hmem⟩
      unfold linkNext
      refine Function.update_of_ne (fun heq => ?_) _ _
      exact hdisj middle hmem j (mem_cons_of_mem _ hj) heq.symm
  obtain ⟨hleft', hrt', hmid⟩ := hfst
  rw [herase]
  refine ⟨⟨?_, ?_, fun hmem => hnull null hmem rfl⟩, fun hne => ?_, ?_⟩
  · rcases hrt'.final_mem with ⟨rfl, rfl, rfl⟩ | ⟨hne, hmem, -⟩
    · rw [if_pos rfl, append_nil]
      exact ⟨middle, hleft'⟩
    · have hnext : next ≠ null := hnull next (mem_append_right _ hmem)
      rw [if_neg hnext]
      refine ⟨final, Segment.append.mpr ⟨middle, next, hleft'.congr fun j hj => ?_,
        hrt'.setPrevious hrightNodup hne middle⟩⟩
      unfold linkPrevious
      refine Function.update_of_ne (fun heq => ?_) _ _
      exact hdisj j hj next (mem_cons_of_mem _ hmem) heq
  · exact List.Nodup.append hleftNodup hrightNodup fun j hj hj' =>
      hdisj j hj j (mem_cons_of_mem _ hj') rfl
  · exact mem_append_left _ (hmid hne)
  · rcases hrt'.final_mem with ⟨-, rfl, -⟩ | ⟨-, hmem, -⟩
    · exact fun hne => absurd rfl hne
    · exact fun _ => mem_append_right _ (mem_cons_of_mem _ hmem)

/-- A new first node. -/
theorem push (h : Linked links null head chain) {i : ι} (hi : i ∉ chain) (hnull : i ≠ null)
    (hlnk : links i = some (null, head)) :
    Linked (if head = null then links else linkPrevious links head i) null i (i :: chain) := by
  obtain ⟨final, hseg⟩ := h.segment
  refine ⟨?_, nodup_cons.mpr ⟨hi, h.nodup⟩, ?_⟩
  · rcases hseg.final_mem with ⟨rfl, rfl, rfl⟩ | ⟨hne, hmem, -⟩
    · rw [if_pos rfl]
      exact ⟨i, rfl, _, hlnk, rfl, rfl⟩
    · have hhead : head ≠ null := fun heq => h.notNull (heq ▸ hmem)
      rw [if_neg hhead]
      refine ⟨final, rfl, head, ?_, hseg.setPrevious h.nodup hne i⟩
      unfold linkPrevious
      rw [Function.update_of_ne (ne_of_mem_of_not_mem hmem hi).symm, hlnk]
  · intro hmem
    rcases mem_cons.mp hmem with heq | hmem
    · exact hnull heq.symm
    · exact h.notNull hmem

end Linked

end Lib
