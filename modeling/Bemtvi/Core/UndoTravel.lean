/-
Module: Bemtvi.Core.UndoTravel
Purpose: Travel through the history in seq order.  Every travel lands on its own side of the current
  state; `g-` and `g+` stay only where no state is left on theirs; and repeated one by one they
  meet every state there is, in order.  A buffer that is not modifiable refuses to move.
Trusted boundary: none
Main exports: UndoTree.Sided, nodeNearSeq_sided, nodeNearTime_sided, nodeNearSave_sided,
  Editor.visits, Between.visits_back, history_travel
-/
import Bemtvi.Core.UndoRuns

namespace Bemtvi.Core

open Utf8
open Word (saturate)
open Run (run run_invariant)
open Picks

variable {E : Type}

namespace UndoTree

/-! ### Landing on a side -/

/-- An index whose state lies on a side of the current one, or is it. -/
def Sided (tree : UndoTree E) (back : Bool) (idx : Nat) : Prop :=
  ∃ node, tree.nodes[idx]? = some node ∧
    if back then node.data.seq ≤ tree.curSeq else tree.curSeq ≤ node.data.seq

theorem sided_of_onTravelSide {tree : UndoTree E} {entry : UndoNode E × Nat} {back : Bool}
    (listed : entry ∈ tree.enumerate) (sided : tree.onTravelSide entry.1 back = true) :
    tree.Sided back entry.2 := by
  refine ⟨entry.1, mem_enumerate.1 listed, ?_⟩
  unfold onTravelSide at sided
  cases back with
  | true => simpa using sided
  | false => exact Nat.le_of_lt (by simpa using sided)

variable {tree : UndoTree E} (consistent : tree.Consistent) (back : Bool)
include consistent

theorem cur_sided : tree.Sided back tree.cur := by
  rcases consistent.current with ⟨node, found, seq⟩
  refine ⟨node, found, ?_⟩
  rw [seq]
  split
  · exact Nat.le_refl _
  · exact Nat.le_refl _

theorem endNode_sided : tree.Sided back (tree.endNode back) := by
  rcases consistent.current with ⟨node, found, seq⟩
  have listed : (node, tree.cur) ∈ tree.enumerate := mem_enumerate.2 found
  unfold endNode
  cases back with
  | true =>
      simp only [if_true]
      split
      · next entry idx picked =>
          refine ⟨_, mem_enumerate.1 (minByKey_mem picked), ?_⟩
          exact seq ▸ minByKey_best picked _ listed
      · exact cur_sided consistent true
  | false =>
      simp only [Bool.false_eq_true, if_false]
      split
      · next entry idx picked =>
          refine ⟨_, mem_enumerate.1 (maxByKey_mem picked), ?_⟩
          exact seq ▸ maxByKey_best picked _ listed
      · exact cur_sided consistent false

theorem nodeNearSeq_sided (target : Nat) : tree.Sided back (tree.nodeNearSeq target back) := by
  unfold nodeNearSeq
  simp only
  split
  · next entry idx picked =>
      rcases List.mem_filter.1 (pick_mem picked) with ⟨listed, sided⟩
      rw [Bool.and_eq_true] at sided
      exact sided_of_onTravelSide listed sided.1
  · split
    · next entry idx picked =>
        rcases List.mem_filter.1 (minByKey_mem picked) with ⟨listed, sided⟩
        exact sided_of_onTravelSide listed sided
    · exact cur_sided consistent back

theorem nodeNearTime_sided (target : Int) : tree.Sided back (tree.nodeNearTime target back) := by
  unfold nodeNearTime
  simp only
  split
  · next entry idx picked =>
      rcases List.mem_filter.1 (pick_mem picked) with ⟨listed, sided⟩
      rw [Bool.and_eq_true] at sided
      exact sided_of_onTravelSide listed sided.1
  · exact endNode_sided consistent back

/-- Before the first write lies the oldest state, which only a travel back asks for. -/
theorem nodeNearSave_sided {target : Int} (asked : back = false → 0 < target) :
    tree.Sided back (tree.nodeNearSave target back) := by
  unfold nodeNearSave
  split
  · next early =>
      cases back with
      | true => exact endNode_sided consistent true
      | false => exact absurd (asked rfl) (Int.not_lt.2 early)
  · simp only
    split
    · next idx nr picked =>
        have listed := List.mem_of_mem_filter (pick_mem picked)
        rcases List.mem_filterMap.1 listed with ⟨entry, kept, stamped⟩
        rcases Option.map_eq_some_iff.1 stamped with ⟨nr', -, same⟩
        cases same
        rcases List.mem_filter.1 kept with ⟨listed, sided⟩
        exact sided_of_onTravelSide listed sided
    · exact endNode_sided consistent back

/-! ### The nearest state by seq -/

variable {node : UndoNode E}

omit consistent in
/-- Going back from a target short of the current state, none between the two is passed over. -/
theorem nodeNearSeq_back {target : Nat} (short : target < tree.curSeq) {idx : Nat}
    (found : tree.nodes[idx]? = some node) (older : node.data.seq < tree.curSeq) :
    ∃ landed, tree.nodes[tree.nodeNearSeq target true]? = some landed ∧
      landed.data.seq < tree.curSeq ∧
      (node.data.seq ≤ target → node.data.seq ≤ landed.data.seq) ∧
      (landed.data.seq ≤ target ∨ landed.data.seq ≤ node.data.seq) := by
  have listed : (node, idx) ∈ tree.enumerate := mem_enumerate.2 found
  unfold nodeNearSeq
  simp only [if_true]
  split
  · next entry idx' picked =>
      rcases List.mem_filter.1 (maxByKey_mem picked) with ⟨there, sided⟩
      simp only [Bool.and_eq_true, decide_eq_true_eq] at sided
      refine ⟨_, mem_enumerate.1 there, Nat.lt_of_le_of_lt sided.2 short, ?_, Or.inl sided.2⟩
      intro near
      apply maxByKey_best picked (node, idx)
      simp only [List.mem_filter, Bool.and_eq_true, decide_eq_true_eq, onTravelSide, if_true]
      exact ⟨listed, Nat.le_of_lt older, near⟩
  · next nothing =>
      -- Nothing at or before the target: the nearest is the oldest.
      rw [maxByKey_eq_none, List.filter_eq_nil_iff] at nothing
      have beyond : ∀ entry ∈ tree.enumerate, entry.1.data.seq ≤ tree.curSeq →
          target < entry.1.data.seq := by
        intro entry there before
        have missed := nothing entry there
        simp only [Bool.and_eq_true, decide_eq_true_eq, onTravelSide, if_true, not_and,
          Nat.not_le] at missed
        exact missed before
      have kept : (node, idx) ∈ tree.enumerate.filter fun entry =>
          tree.onTravelSide entry.1 true := by
        simp only [List.mem_filter, decide_eq_true_eq, onTravelSide, if_true]
        exact ⟨listed, Nat.le_of_lt older⟩
      have far := beyond _ listed (Nat.le_of_lt older)
      split
      · next entry idx' picked =>
          rcases List.mem_filter.1 (minByKey_mem picked) with ⟨there, sided⟩
          simp only [decide_eq_true_eq, onTravelSide, if_true] at sided
          have nearest := minByKey_best picked _ kept
          have behind := beyond _ there sided
          simp only [absDiff] at nearest behind far
          refine ⟨_, mem_enumerate.1 there, ?_, ?_, Or.inr ?_⟩
          · show entry.data.seq < tree.curSeq
            omega
          · intro near
            exact absurd far (Nat.not_lt.2 near)
          · show entry.data.seq ≤ node.data.seq
            omega
      · next empty =>
          rw [minByKey_eq_none] at empty
          rw [empty] at kept
          exact absurd kept List.not_mem_nil

omit consistent in
/-- Going forward to a target at most one past the current state, the next state is found. -/
theorem nodeNearSeq_forward (target : Nat) {idx : Nat} (found : tree.nodes[idx]? = some node)
    (newer : tree.curSeq < node.data.seq) :
    ∃ landed, tree.nodes[tree.nodeNearSeq target false]? = some landed ∧
      tree.curSeq < landed.data.seq ∧
      (target ≤ tree.curSeq + 1 → landed.data.seq ≤ node.data.seq) := by
  have listed : (node, idx) ∈ tree.enumerate := mem_enumerate.2 found
  unfold nodeNearSeq
  simp only [Bool.false_eq_true, if_false]
  split
  · next entry idx' picked =>
      rcases List.mem_filter.1 (minByKey_mem picked) with ⟨there, sided⟩
      simp only [Bool.and_eq_true, decide_eq_true_eq, onTravelSide, Bool.false_eq_true,
        if_false] at sided
      refine ⟨_, mem_enumerate.1 there, sided.1, ?_⟩
      intro near
      apply minByKey_best picked (node, idx)
      simp only [List.mem_filter, Bool.and_eq_true, decide_eq_true_eq, onTravelSide,
        Bool.false_eq_true, if_false]
      exact ⟨listed, newer, by show target ≤ node.data.seq; omega⟩
  · next nothing =>
      rw [minByKey_eq_none, List.filter_eq_nil_iff] at nothing
      have kept : (node, idx) ∈ tree.enumerate.filter fun entry =>
          tree.onTravelSide entry.1 false := by
        simp only [List.mem_filter, decide_eq_true_eq, onTravelSide, Bool.false_eq_true, if_false]
        exact ⟨listed, newer⟩
      split
      · next entry idx' picked =>
          rcases List.mem_filter.1 (minByKey_mem picked) with ⟨there, sided⟩
          simp only [decide_eq_true_eq, onTravelSide, Bool.false_eq_true, if_false] at sided
          refine ⟨_, mem_enumerate.1 there, sided, ?_⟩
          intro near
          have missed := nothing _ listed
          simp only [Bool.and_eq_true, decide_eq_true_eq, onTravelSide, Bool.false_eq_true,
            if_false, not_and, ge_iff_le, Nat.not_le] at missed
          exact absurd (missed newer) (by show ¬ node.data.seq < target; omega)
      · next empty =>
          rw [minByKey_eq_none] at empty
          rw [empty] at kept
          exact absurd kept List.not_mem_nil

/-- The seqs of the states, which grow with the index. -/
def seqs (tree : UndoTree E) : List Nat := tree.nodes.map (·.data.seq)

omit consistent in
theorem mem_seqs {seq : Nat} :
    seq ∈ tree.seqs ↔ ∃ (idx : Nat) (node : UndoNode E),
      tree.nodes[idx]? = some node ∧ node.data.seq = seq := by
  unfold seqs
  rw [List.mem_map]
  constructor
  · rintro ⟨node, listed, same⟩
    rcases List.getElem?_of_mem listed with ⟨idx, found⟩
    exact ⟨idx, node, found, same⟩
  · rintro ⟨idx, node, found, same⟩
    exact ⟨node, List.mem_of_getElem? found, same⟩

theorem seqs_pairwise : tree.seqs.Pairwise (· < ·) := by
  unfold seqs
  rw [List.pairwise_map]
  apply List.pairwise_iff_getElem.2
  intro i j inside inside' smaller
  exact consistent.seqs_increase i j _ _ (List.getElem?_eq_getElem inside)
    (List.getElem?_eq_getElem inside') smaller

end UndoTree

namespace Editor

open UndoTree (seqs mem_seqs)

/-! ### Landing -/

variable [ExtmarkStore E]

/-- **A landing** in a settled editor: the states are the same, and the live one is `seq`. -/
structure Lands (before after : Editor E) (seq : Nat) : Prop where
  sound : after.Sound
  seqs : after.undoTree.seqs = before.undoTree.seqs
  clean : after.undoTree.dirty = false
  modifiable : after.around.modifiable = before.around.modifiable
  stateSeq : after.stateSeq = seq

variable {editor : Editor E} {count seq : Nat} {newer older : List Nat}

omit [ExtmarkStore E] in
theorem stateSeq_clean (clean : editor.undoTree.dirty = false) :
    editor.stateSeq = editor.undoTree.curSeq :=
  stateSeq_settled (not_pending_of_clean clean)

omit [ExtmarkStore E] in
theorem lands_echo (sound : editor.Sound) (clean : editor.undoTree.dirty = false)
    (message : String) : Lands editor (editor.echo message) editor.stateSeq := by
  have quiet : Quiet editor (editor.echo message) := .of_same sound rfl rfl rfl
  exact ⟨quiet.sound, rfl, clean, rfl, rfl⟩

/-- `undo_land_on` lands, but in a buffer that is not modifiable. -/
theorem undoLandOn_lands (sound : editor.Sound) (clean : editor.undoTree.dirty = false)
    (back : Bool) {idx : Nat} {node : UndoNode E}
    (found : editor.undoTree.nodes[idx]? = some node) : Lands editor (editor.undoLandOn idx back)
      (if editor.around.modifiable then node.data.seq else editor.stateSeq) := by
  unfold undoLandOn
  by_cases here : idx = editor.undoTree.cur
  · have same : node.data.seq = editor.stateSeq := by
      rw [stateSeq_clean clean, UndoTree.curSeq, ← here, found]
    rw [if_pos here, same, ite_self]
    exact lands_echo sound clean _
  · rw [if_neg here]
    by_cases modifiable : editor.around.modifiable = true
    · rw [if_neg (by simp [modifiable]), if_pos modifiable]
      have landed := land_spec found
      rcases landed.sound sound clean found with ⟨sound', settled, stateSeq, -⟩
      refine ⟨sound', ?_, ?_, ?_, stateSeq⟩
      · rw [landed.tree]
        rfl
      · rw [landed.tree]
        exact clean
      · unfold land
        rw [found]
        rfl
    · rw [if_pos modifiable, if_neg modifiable]
      exact lands_echo sound clean _

/-! ### One travel -/

theorem saturate_le {value : Int} (positive : 0 ≤ value) : saturate value ≤ value := by
  unfold saturate
  omega

/-- `g-`, `:earlier {N}s` and `:earlier {N}f`, or the way forward. -/
inductive Travel where
  | states (count : Nat)
  | seconds (secs : Int)
  | writes (count : Nat)

/-- A travel, either way. -/
def travel (editor : Editor E) (back : Bool) : Travel → Editor E
  | .states count => editor.undoTravel count back
  | .seconds secs => editor.undoTravelTime secs back
  | .writes count => editor.undoTravelFile count back

theorem clamped_le {value : Int} {bound : Nat} (reach : value ≤ (bound : Int) + 1) (limit : Nat) :
    (max 0 (min value (limit : Int))).toNat ≤ bound + 1 := by
  omega

/-- A travel does nothing, or lands on its side of the state it commits. -/
theorem travel_lands (sound : editor.Sound) (back : Bool) (asked : Travel) :
    editor.travel back asked = editor ∨
      ∃ idx node, editor.commitUndo.undoTree.Sided back idx ∧
        editor.commitUndo.undoTree.nodes[idx]? = some node ∧
        Lands editor.commitUndo (editor.travel back asked)
          (if editor.around.modifiable then node.data.seq else editor.stateSeq) := by
  rcases commitUndo_quiet sound with ⟨quiet, clean⟩
  have consistent := quiet.sound.consistent
  have lands : ∀ idx, editor.commitUndo.undoTree.Sided back idx →
      ∃ idx' node, editor.commitUndo.undoTree.Sided back idx' ∧
        editor.commitUndo.undoTree.nodes[idx']? = some node ∧
        Lands editor.commitUndo (editor.commitUndo.undoLandOn idx back)
          (if editor.around.modifiable then node.data.seq else editor.stateSeq) := by
    intro idx sided
    rcases sided with ⟨node, found, side⟩
    refine ⟨idx, node, ⟨node, found, side⟩, found, ?_⟩
    rw [← quiet.stateSeq, ← UndoRuns.commitUndo_around editor]
    exact undoLandOn_lands quiet.sound clean back found
  cases asked with
  | states count =>
      by_cases nothing : count = 0
      · exact Or.inl (if_pos nothing)
      · apply Or.inr
        show ∃ idx node, _ ∧ _ ∧ Lands _ (editor.undoTravel count back) _
        rw [undoTravel, if_neg nothing]
        exact lands _ (UndoTree.nodeNearSeq_sided consistent back _)
  | seconds secs => exact Or.inr (lands _ (UndoTree.nodeNearTime_sided consistent back _))
  | writes count =>
      by_cases nothing : count = 0
      · exact Or.inl (if_pos nothing)
      · apply Or.inr
        show ∃ idx node, _ ∧ _ ∧ Lands _ (editor.undoTravelFile count back) _
        rw [undoTravelFile, if_neg nothing]
        apply lands
        apply UndoTree.nodeNearSave_sided consistent back
        intro forward
        simp only [forward, Bool.false_eq_true, if_false, saturate]
        omega

/-- **Every travel keeps to its side.** -/
theorem travel_monotone (sound : editor.Sound) (asked : Travel) :
    (editor.travel true asked).stateSeq ≤ editor.stateSeq ∧
      editor.stateSeq ≤ (editor.travel false asked).stateSeq := by
  rcases commitUndo_quiet sound with ⟨quiet, clean⟩
  have current : editor.commitUndo.undoTree.curSeq = editor.stateSeq := by
    rw [← quiet.stateSeq, stateSeq_clean clean]
  constructor
  · rcases travel_lands sound true asked with still | ⟨idx, node, ⟨node', found', side⟩, found, lands⟩
    · exact Nat.le_of_eq (congrArg stateSeq still)
    · rw [found, Option.some.injEq] at found'
      subst found'
      rw [current, if_pos rfl] at side
      rw [lands.stateSeq]
      split
      · exact side
      · exact Nat.le_refl _
  · rcases travel_lands sound false asked with still | ⟨idx, node, ⟨node', found', side⟩, found, lands⟩
    · exact Nat.le_of_eq (congrArg stateSeq still).symm
    · rw [found, Option.some.injEq] at found'
      subst found'
      rw [current] at side
      rw [lands.stateSeq]
      split
      · exact side
      · exact Nat.le_refl _

/-- `g-` goes back where there is a state to go back to, and one step meets the nearest. -/
theorem undoTravel_back (sound : editor.Sound) (modifiable : editor.around.modifiable = true)
    (asked : count ≠ 0) (survives : seq ∈ editor.commitUndo.undoTree.seqs)
    (older : seq < editor.stateSeq) :
    Lands editor.commitUndo (editor.undoTravel count true) (editor.undoTravel count true).stateSeq ∧
    (editor.undoTravel count true).stateSeq ∈ editor.commitUndo.undoTree.seqs ∧
    (editor.undoTravel count true).stateSeq < editor.stateSeq ∧
    (count = 1 → editor.stateSeq ≤ 2 ^ 63 →
      seq ≤ (editor.undoTravel count true).stateSeq) := by
  rcases commitUndo_quiet sound with ⟨quiet, clean⟩
  have current : editor.commitUndo.undoTree.curSeq = editor.stateSeq := by
    rw [← quiet.stateSeq, stateSeq_clean clean]
  rcases mem_seqs.1 survives with ⟨idx, node, found, named⟩
  rw [undoTravel, if_neg asked]
  simp only [if_true, current]
  generalize reach : (max 0 (min (saturate ((editor.stateSeq : Int) - min (count : Int)
    (2 ^ 63 - 1))) (editor.commitUndo.undoTree.seqLast : Int))).toNat = target
  have short : target < editor.commitUndo.undoTree.curSeq := by
    rw [current, ← reach]
    unfold saturate
    omega
  have last : editor.stateSeq ≤ editor.commitUndo.undoTree.seqLast + 1 := by
    rcases quiet.sound.consistent.current with ⟨cur, at_cur, seq_cur⟩
    have minted := quiet.sound.consistent.seqs_minted _ _ at_cur
    rw [seq_cur, current] at minted
    unfold UndoTree.seqLast
    omega
  rw [← current, ← named] at older
  rcases UndoTree.nodeNearSeq_back short found older with
    ⟨landed, there, before, passed, -⟩
  have lands := undoLandOn_lands quiet.sound clean true there
  rw [if_pos (by rw [UndoRuns.commitUndo_around]; exact modifiable)] at lands
  rw [lands.stateSeq]
  refine ⟨lands, mem_seqs.2 ⟨_, landed, there, rfl⟩, current ▸ before, ?_⟩
  intro one bounded
  rw [← named]
  apply passed
  rw [current] at older
  rw [one] at reach
  rw [← reach]
  unfold saturate
  omega

/-- `g+` goes forward where there is a state to go to, and one step meets the next. -/
theorem undoTravel_forward (sound : editor.Sound) (modifiable : editor.around.modifiable = true)
    (asked : count ≠ 0) (survives : seq ∈ editor.commitUndo.undoTree.seqs)
    (newer : editor.stateSeq < seq) : Lands editor.commitUndo (editor.undoTravel count false)
      (editor.undoTravel count false).stateSeq ∧
    (editor.undoTravel count false).stateSeq ∈ editor.commitUndo.undoTree.seqs ∧
    editor.stateSeq < (editor.undoTravel count false).stateSeq ∧
    (count = 1 → (editor.undoTravel count false).stateSeq ≤ seq) := by
  rcases commitUndo_quiet sound with ⟨quiet, clean⟩
  have current : editor.commitUndo.undoTree.curSeq = editor.stateSeq := by
    rw [← quiet.stateSeq, stateSeq_clean clean]
  rcases mem_seqs.1 survives with ⟨idx, node, found, named⟩
  rw [undoTravel, if_neg asked]
  simp only [Bool.false_eq_true, if_false, current]
  generalize reach : (max 0 (min (saturate ((editor.stateSeq : Int) + min (count : Int)
    (2 ^ 63 - 1))) (editor.commitUndo.undoTree.seqLast : Int))).toNat = target
  rw [← current, ← named] at newer
  rcases UndoTree.nodeNearSeq_forward target found newer with
    ⟨landed, there, behind, passed⟩
  have lands := undoLandOn_lands quiet.sound clean false there
  rw [if_pos (by rw [UndoRuns.commitUndo_around]; exact modifiable)] at lands
  rw [lands.stateSeq]
  refine ⟨lands, mem_seqs.2 ⟨_, landed, there, rfl⟩, current ▸ behind, ?_⟩
  intro one
  rw [← named]
  apply passed
  have step : min ((count : Nat) : Int) (2 ^ 63 - 1) = 1 := by
    rw [one]
    norm_num
  rw [step] at reach
  rw [current, ← reach]
  apply clamped_le
  exact saturate_le (Int.add_nonneg (Int.natCast_nonneg _) Int.one_nonneg)

/-! ### One state after the other -/

/-- The states met by so many single travels. -/
def visits (back : Bool) : Nat → Editor E → List Nat
  | 0, _ => []
  | turns + 1, editor =>
      (editor.undoTravel 1 back).stateSeq :: visits back turns (editor.undoTravel 1 back)

/-- A settled editor with the states before the live one, and those behind it. -/
structure Between (editor : Editor E) (older newer : List Nat) : Prop where
  sound : editor.Sound
  clean : editor.undoTree.dirty = false
  modifiable : editor.around.modifiable = true
  seqs : editor.undoTree.seqs = older ++ editor.stateSeq :: newer

omit [ExtmarkStore E] in
theorem Between.sorted (between : Between editor older newer) :
    older.Pairwise (· < ·) ∧ (editor.stateSeq :: newer).Pairwise (· < ·) ∧
      ∀ a ∈ older, ∀ b ∈ editor.stateSeq :: newer, a < b := by
  have sorted := UndoTree.seqs_pairwise between.sound.consistent
  rw [between.seqs, List.pairwise_append] at sorted
  exact sorted

/-- A travel that lands between the same states. -/
theorem Between.lands {after : Editor E} {older' newer' : List Nat}
    (between : Between editor older newer) (lands : Lands editor.commitUndo after after.stateSeq)
    (shifted : older ++ editor.stateSeq :: newer = older' ++ after.stateSeq :: newer') :
    Between after older' newer' := by
  rw [UndoRuns.commitUndo_clean between.clean] at lands
  exact ⟨lands.sound, lands.clean, lands.modifiable.trans between.modifiable,
    lands.seqs.trans (between.seqs.trans shifted)⟩

/-- One state back is the last of the older ones. -/
theorem Between.undoTravel_back (between : Between editor (older ++ [seq]) newer)
    (bounded : editor.stateSeq ≤ 2 ^ 63) : (editor.undoTravel 1 true).stateSeq = seq ∧
      Between (editor.undoTravel 1 true) older (editor.stateSeq :: newer) := by
  have listed : seq ∈ older ++ [seq] := List.mem_append_right _ (List.mem_singleton_self seq)
  rcases between.sorted with ⟨sorted, -, apart⟩
  have earlier : seq < editor.stateSeq := apart seq listed _ List.mem_cons_self
  have survives : seq ∈ editor.commitUndo.undoTree.seqs := by
    rw [UndoRuns.commitUndo_clean between.clean, between.seqs]
    exact List.mem_append_left _ listed
  rcases Editor.undoTravel_back between.sound between.modifiable Nat.one_ne_zero survives earlier
    with ⟨lands, held, before, nearest⟩
  have same : (editor.undoTravel 1 true).stateSeq = seq := by
    apply Nat.le_antisymm ?_ (nearest rfl bounded)
    rw [UndoRuns.commitUndo_clean between.clean, between.seqs] at held
    rcases List.mem_append.1 held with behind | ahead
    · rcases List.mem_append.1 behind with first | last
      · exact Nat.le_of_lt ((List.pairwise_append.1 sorted).2.2 _ first _ (List.mem_singleton_self seq))
      · exact Nat.le_of_eq (List.mem_singleton.1 last)
    · rcases List.mem_cons.1 ahead with here | later
      · exact absurd (here ▸ before) (Nat.lt_irrefl _)
      · have above := (List.pairwise_cons.1 between.sorted.2.1).1 _ later
        exact absurd (Nat.lt_trans above before) (Nat.lt_irrefl _)
  refine ⟨same, between.lands lands ?_⟩
  rw [same, List.append_assoc]
  rfl

/-- One state forward is the first of the newer ones. -/
theorem Between.undoTravel_forward (between : Between editor older (seq :: newer)) :
    (editor.undoTravel 1 false).stateSeq = seq ∧
      Between (editor.undoTravel 1 false) (older ++ [editor.stateSeq]) newer := by
  rcases between.sorted with ⟨-, sorted, apart⟩
  have later : editor.stateSeq < seq :=
    (List.pairwise_cons.1 sorted).1 seq List.mem_cons_self
  have survives : seq ∈ editor.commitUndo.undoTree.seqs := by
    rw [UndoRuns.commitUndo_clean between.clean, between.seqs]
    exact List.mem_append_right _ (List.mem_cons_of_mem _ List.mem_cons_self)
  rcases Editor.undoTravel_forward between.sound between.modifiable Nat.one_ne_zero survives later
    with ⟨lands, held, behind, nearest⟩
  have same : (editor.undoTravel 1 false).stateSeq = seq := by
    apply Nat.le_antisymm (nearest rfl)
    rw [UndoRuns.commitUndo_clean between.clean, between.seqs] at held
    rcases List.mem_append.1 held with before | after
    · have below := apart _ before _ List.mem_cons_self
      exact absurd (Nat.lt_trans below behind) (Nat.lt_irrefl _)
    · rcases List.mem_cons.1 after with here | after
      · exact absurd (here ▸ behind) (Nat.lt_irrefl _)
      · rcases List.mem_cons.1 after with first | rest
        · exact Nat.le_of_eq first.symm
        · exact Nat.le_of_lt
            ((List.pairwise_cons.1 (List.pairwise_cons.1 sorted).2).1 _ rest)
  refine ⟨same, between.lands lands ?_⟩
  rw [same, List.append_assoc]
  rfl

/-- Back and back again meets the older states, the newest first. -/
theorem Between.visits_back (between : Between editor older newer)
    (bounded : editor.stateSeq ≤ 2 ^ 63) : visits true older.length editor = older.reverse := by
  induction older using List.reverseRecOn generalizing editor newer with
  | nil => rfl
  | append_singleton older seq ih =>
      rcases between.undoTravel_back bounded with ⟨met, next⟩
      have earlier : seq < editor.stateSeq :=
        between.sorted.2.2 seq (List.mem_append_right _ (List.mem_singleton_self seq)) _
          List.mem_cons_self
      rw [List.length_append, List.length_singleton, visits, List.reverse_append,
        ih next (met ▸ Nat.le_trans (Nat.le_of_lt earlier) bounded), met]
      rfl

/-- Forward and forward again meets the newer states, the oldest first. -/
theorem Between.visits_forward (between : Between editor older newer) :
    visits false newer.length editor = newer := by
  induction newer generalizing editor older with
  | nil => rfl
  | cons seq newer ih =>
      rcases between.undoTravel_forward with ⟨met, next⟩
      rw [List.length_cons, visits, ih next, met]

/-- Behind a commit a travel by states is the same. -/
theorem undoTravel_commitUndo (sound : editor.Sound) (asked : count ≠ 0) (back : Bool) :
    editor.commitUndo.undoTravel count back = editor.undoTravel count back := by
  rw [undoTravel, undoTravel, if_neg asked, if_neg asked,
    UndoRuns.commitUndo_clean (commitUndo_quiet sound).2]

theorem visits_commitUndo (sound : editor.Sound) (back : Bool) (turns : Nat) :
    visits back turns editor.commitUndo = visits back turns editor := by
  cases turns with
  | zero => rfl
  | succ turns => rw [visits, visits, undoTravel_commitUndo sound Nat.one_ne_zero]

omit [ExtmarkStore E] in
/-- Ascending states, split at one of them. -/
theorem filter_around {xs : List Nat} (sorted : xs.Pairwise (· < ·)) (listed : seq ∈ xs) :
    xs = xs.filter (· < seq) ++ seq :: xs.filter (seq < ·) := by
  rcases List.append_of_mem listed with ⟨older, newer, split⟩
  rw [split, List.pairwise_append, List.pairwise_cons] at sorted
  rcases sorted with ⟨-, ⟨above, -⟩, apart⟩
  have below : ∀ a ∈ older, a < seq := fun a early => apart a early seq List.mem_cons_self
  have none_above : ∀ a ∈ older, ¬ seq < a := fun a early => Nat.not_lt.2 (Nat.le_of_lt (below a early))
  have none_below : ∀ a ∈ newer, ¬ a < seq := fun a late => Nat.not_lt.2 (Nat.le_of_lt (above a late))
  have kept_older : older.filter (· < seq) = older :=
    List.filter_eq_self.2 fun a early => decide_eq_true (below a early)
  have kept_newer : newer.filter (seq < ·) = newer :=
    List.filter_eq_self.2 fun a late => decide_eq_true (above a late)
  have no_newer : newer.filter (· < seq) = [] :=
    List.filter_eq_nil_iff.2 fun a late => by simpa using none_below a late
  have no_older : older.filter (seq < ·) = [] :=
    List.filter_eq_nil_iff.2 fun a early => by simpa using none_above a early
  rw [split, List.filter_append, List.filter_append, List.filter_cons, List.filter_cons, kept_older,
    kept_newer, no_newer, no_older]
  simp

theorem between_commitUndo (sound : editor.Sound) (modifiable : editor.around.modifiable = true) :
    Between editor.commitUndo
      (editor.commitUndo.undoTree.seqs.filter (· < editor.stateSeq))
      (editor.commitUndo.undoTree.seqs.filter (editor.stateSeq < ·)) := by
  rcases commitUndo_quiet sound with ⟨quiet, clean⟩
  refine ⟨quiet.sound, clean, by rw [UndoRuns.commitUndo_around]; exact modifiable, ?_⟩
  rw [quiet.stateSeq]
  apply filter_around (UndoTree.seqs_pairwise quiet.sound.consistent)
  rcases quiet.sound.consistent.current with ⟨node, found, seq⟩
  refine mem_seqs.2 ⟨_, node, found, ?_⟩
  rw [seq, ← quiet.stateSeq, stateSeq_clean clean]

end Editor

namespace UndoRuns

open Editor (Travel visits)

variable [ExtmarkStore E]

/-- **Travel through the history.**  In every state a run reaches, with the states that survive the
commit of what is pending: every travel keeps to its side of the current state, lands on a state
that survives and keeps them all.  In a modifiable buffer a travel by states that stays has no state
left on its side, and single travels meet every older state once, the newest first, and every newer
one, the oldest first.  Where the buffer is not modifiable, none of them moves. -/
theorem history_travel [Alphabet] (buffer : Buffer E) (around : Surroundings)
    (events : List (Event E)) (editor : Editor E)
    (reached : run step (.start buffer around) events = some editor) :
    let seqs := editor.commitUndo.undoTree.seqs
    seqs.Pairwise (· < ·) ∧
    (∀ asked : Travel, (editor.travel true asked).stateSeq ≤ editor.stateSeq ∧
      editor.stateSeq ≤ (editor.travel false asked).stateSeq) ∧
    (∀ back (asked : Travel), editor.travel back asked = editor ∨
      (editor.travel back asked).stateSeq ∈ seqs ∧
        (editor.travel back asked).undoTree.seqs = seqs) ∧
    (editor.around.modifiable = true →
      (∀ count ≠ 0, (editor.undoTravel count true).stateSeq = editor.stateSeq →
        ∀ seq ∈ seqs, ¬ seq < editor.stateSeq) ∧
      (∀ count ≠ 0, (editor.undoTravel count false).stateSeq = editor.stateSeq →
        ∀ seq ∈ seqs, ¬ editor.stateSeq < seq) ∧
      (editor.commitUndo.undoTree.seqLast < 2 ^ 63 →
        visits true (seqs.filter (· < editor.stateSeq)).length editor =
          (seqs.filter (· < editor.stateSeq)).reverse) ∧
      visits false (seqs.filter (editor.stateSeq < ·)).length editor =
        seqs.filter (editor.stateSeq < ·)) ∧
    (editor.around.modifiable = false → ∀ back (asked : Travel),
      (editor.travel back asked).stateSeq = editor.stateSeq) := by
  intro seqs
  have sound := run_sound reached
  rcases Editor.commitUndo_quiet sound with ⟨quiet, clean⟩
  have current : editor.commitUndo.undoTree.curSeq = editor.stateSeq := by
    rw [← quiet.stateSeq, Editor.stateSeq_clean clean]
  refine ⟨UndoTree.seqs_pairwise quiet.sound.consistent, Editor.travel_monotone sound, ?_, ?_, ?_⟩
  · intro back asked
    rcases Editor.travel_lands sound back asked with still | ⟨idx, node, -, found, lands⟩
    · exact Or.inl still
    · refine Or.inr ⟨?_, lands.seqs⟩
      rw [lands.stateSeq]
      split
      · exact UndoTree.mem_seqs.2 ⟨idx, node, found, rfl⟩
      · rcases quiet.sound.consistent.current with ⟨cur, at_cur, seq⟩
        exact UndoTree.mem_seqs.2 ⟨_, cur, at_cur, seq.trans current⟩
  · intro modifiable
    have between := Editor.between_commitUndo sound modifiable
    refine ⟨?_, ?_, ?_, ?_⟩
    · intro count asked stays seq survives older
      have moved := (Editor.undoTravel_back sound modifiable asked survives older).2.2.1
      exact absurd stays (Nat.ne_of_lt moved)
    · intro count asked stays seq survives newer
      have moved := (Editor.undoTravel_forward sound modifiable asked survives newer).2.2.1
      exact absurd stays (Nat.ne_of_gt moved)
    · intro bounded
      have minted := quiet.sound.stateSeq_le
      unfold UndoTree.seqLast at bounded
      rw [← Editor.visits_commitUndo sound]
      exact between.visits_back (by omega)
    · rw [← Editor.visits_commitUndo sound]
      exact between.visits_forward
  · intro fixed back asked
    rcases Editor.travel_lands sound back asked with still | ⟨idx, node, -, -, lands⟩
    · rw [still]
    · rw [lands.stateSeq, if_neg (by simp [fixed])]

/-- Two changes, each a state, and the first one current. -/
def backOne : List (Event Unit) :=
  [.pushUndo, .edit (typed ['b', '\n'] 1), .commitUndo, .pushUndo, .edit (typed ['c', '\n'] 2),
    .undoTravel 1 true]

theorem history_travel_backOne :
    ∃ editor : Editor Unit, run step (.start (.ofText ['a', '\n']) calm) backOne = some editor ∧
      visits true 1 editor = [0] ∧ visits false 1 editor = [2] := by
  have reached : ∃ editor : Editor Unit,
      run step (.start (.ofText ['a', '\n']) calm) backOne = some editor ∧
        editor.around.modifiable = true ∧ editor.stateSeq = 1 ∧
        editor.commitUndo.undoTree.seqs = [0, 1, 2] ∧ editor.commitUndo.undoTree.seqLast = 2 :=
    ⟨_, rfl, rfl, rfl, rfl, rfl⟩
  rcases reached with ⟨editor, reached, modifiable, current, seqs, last⟩
  have travels := (history_travel _ calm backOne editor reached).2.2.2.1 modifiable
  rw [seqs, current] at travels
  exact ⟨editor, reached, travels.2.2.1 (by rw [last]; decide), travels.2.2.2⟩

/-- A state to go back to, and a buffer that is not modifiable: `g-` stays. -/
theorem travel_refused :
    ∃ editor : Editor Unit,
      run step (.start (.ofText ['a', '\n']) calm)
          [.pushUndo, .edit (typed ['b', '\n'] 1), .commitUndo,
            .surround { calm with modifiable := false }] = some editor ∧
        (editor.undoTravel 1 true).stateSeq = editor.stateSeq ∧
        ∃ seq ∈ editor.commitUndo.undoTree.seqs, seq < editor.stateSeq :=
  ⟨_, rfl, rfl, 0, by decide, by decide⟩

end UndoRuns

end Bemtvi.Core
