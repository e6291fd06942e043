/-
Module: Bemtvi.Core.FoldRanges
Purpose: The ranges that the stack makes of the levels of lines are the maximal runs of deep lines,
  each once, at its smallest depth; and how many ranges surround one falls short of that depth
  exactly where a surrounding range is a run at two depths.
Trusted boundary: none
Main exports: IsRun, Emitted, Opened, closeTo_spec, levelsLoop_spec, mem_rangesFromLevels, Plain,
  levelAt_foldOf, fold_ranges_iff
-/
import Bemtvi.Core.Fold
import Bemtvi.Core.FoldLevels

namespace Bemtvi.Core.FoldLevels

/-! ### Runs of deep lines -/

/-- The level of a line; none lies behind the last. -/
def lineLevel (levels : List Nat) (i : Nat) : Nat := levels.getD i 0

/-- A maximal run of lines of at least a level. -/
structure IsRun (levels : List Nat) (d s e : Nat) : Prop where
  ordered : s ≤ e
  inside : e < levels.length
  deep : ∀ i, s ≤ i → i ≤ e → d ≤ lineLevel levels i
  left : s = 0 ∨ lineLevel levels (s - 1) < d
  right : lineLevel levels (e + 1) < d

/-- Long enough for a fold. -/
def Long (foldminlines s e : Nat) : Prop := s < e ∧ foldminlines < e - s + 1

/-- A run, at some depth, that is long enough. -/
structure Emitted (levels : List Nat) (foldminlines d s e : Nat) : Prop where
  positive : 1 ≤ d
  run : IsRun levels d s e
  long : Long foldminlines s e

variable {levels : List Nat} {foldminlines : Nat}

variable {i d e e' s s' k : Nat} {opened : List Nat} {ranges : List Range}

theorem lineLevel_past (past : levels.length ≤ i) : lineLevel levels i = 0 := by
  rw [lineLevel, List.getD_eq_getElem?_getD, List.getElem?_eq_none past]
  rfl

/-- Of two runs that meet, the deeper lies inside the other. -/
theorem IsRun.nested {d' : Nat} (outer : IsRun levels d s e) (inner : IsRun levels d' s' e')
    (shallower : d ≤ d') (meets : s ≤ e' ∧ s' ≤ e) : s ≤ s' ∧ e' ≤ e := by
  have inner_ordered := inner.ordered
  constructor
  · by_contra early
    rcases outer.left with top | shallow
    · omega
    · have deep := inner.deep (s - 1) (by omega) (by omega)
      omega
  · by_contra late
    have shallow := outer.right
    have deep := inner.deep (e + 1) (by omega) (by omega)
    omega

/-- Runs of one depth that meet are the same. -/
theorem IsRun.unique (one : IsRun levels d s e) (other : IsRun levels d s' e')
    (meets : s ≤ e' ∧ s' ≤ e) : s = s' ∧ e = e' := by
  have inside := one.nested other (Nat.le_refl d) meets
  have inside' := other.nested one (Nat.le_refl d) ⟨meets.2, meets.1⟩
  omega

/-! ### The stack -/

/-- A run of a depth that reaches from its start to before a line. -/
structure StartsRun (levels : List Nat) (i d s : Nat) : Prop where
  before : s < i
  deep : ∀ j, s ≤ j → j < i → d ≤ lineLevel levels j
  left : s = 0 ∨ lineLevel levels (s - 1) < d

theorem StartsRun.unique (one : StartsRun levels i d s) (other : StartsRun levels i d s') :
    s = s' := by
  have apart : ∀ {s s' : Nat}, StartsRun levels i d s → StartsRun levels i d s' → ¬ s < s' := by
    intro s s' one other early
    rcases other.left with top | shallow
    · omega
    · have before := other.before
      have deep := one.deep (s' - 1) (by omega) (by omega)
      omega
  have first := apart one other
  have second := apart other one
  omega

/-- The folds that are open before a line, the innermost first: each at the start of its run. -/
def Opened (levels : List Nat) (i : Nat) : List Nat → Prop
  | [] => True
  | start :: rest => StartsRun levels i (rest.length + 1) start ∧ Opened levels i rest

theorem mem_emit {start stop level : Nat} {range : Range} :
    range ∈ emit foldminlines start stop level ↔
      range = (start, stop, level) ∧ Long foldminlines start stop := by
  unfold emit Long
  split
  · next long => simp [long]
  · next short =>
      rw [List.mem_nil_iff, false_iff]
      exact fun both => short both.2

/-- **Closing.**  What is closed at a line is emitted as the run that ends before it. -/
theorem closeTo_spec (foldminlines cur : Nat) (opened : List Nat)
    (opened_runs : Opened levels i opened) (out : List Range) :
    Opened levels i (closeTo foldminlines cur (i - 1) opened out).1 ∧
      (closeTo foldminlines cur (i - 1) opened out).1.length = min opened.length cur ∧
      ∀ s e d, (s, e, d) ∈ (closeTo foldminlines cur (i - 1) opened out).2 ↔
        (s, e, d) ∈ out ∨ (e = i - 1 ∧ cur < d ∧ d ≤ opened.length ∧ Long foldminlines s e ∧
          StartsRun levels i d s) := by
  induction opened generalizing out with
  | nil =>
      refine ⟨trivial, by simp [closeTo], ?_⟩
      intro s e d
      rw [closeTo]
      constructor
      · exact Or.inl
      · rintro (there | ⟨-, deep, none_open, -⟩)
        · exact there
        · rw [List.length_nil] at none_open
          omega
  | cons start rest ih =>
      obtain ⟨here, rest_runs⟩ := opened_runs
      unfold closeTo
      split
      · next closes =>
          obtain ⟨still, length, members⟩ :=
            ih rest_runs (out ++ emit foldminlines start (i - 1) (rest.length + 1))
          refine ⟨still, by rw [length, List.length_cons]; omega, ?_⟩
          intro s e d
          rw [members, List.mem_append, mem_emit, List.length_cons]
          constructor
          · rintro ((there | ⟨same, long⟩) | ⟨stop, deep, shallow, long, starts⟩)
            · exact Or.inl there
            · cases same
              exact Or.inr ⟨rfl, closes, Nat.le_refl _, long, here⟩
            · exact Or.inr ⟨stop, deep, by omega, long, starts⟩
          · rintro (there | ⟨rfl, deep, shallow, long, starts⟩)
            · exact Or.inl (Or.inl there)
            · rcases Nat.lt_or_eq_of_le shallow with below | same
              · exact Or.inr ⟨rfl, deep, by omega, long, starts⟩
              · subst same
                obtain rfl := starts.unique here
                exact Or.inl (Or.inr ⟨rfl, long⟩)
      · next stays =>
          refine ⟨⟨here, rest_runs⟩, ?_, ?_⟩
          · rw [List.length_cons]
            omega
          · intro s e d
            constructor
            · exact Or.inl
            · rintro (there | ⟨-, deep, shallow, -⟩)
              · exact there
              · rw [List.length_cons] at shallow
                omega

/-- Runs that are deep enough reach over the next line. -/
theorem Opened.further (runs : Opened levels i opened) (deep : opened.length ≤ lineLevel levels i) :
    Opened levels (i + 1) opened := by
  induction opened with
  | nil => trivial
  | cons start rest ih =>
      obtain ⟨here, rest_runs⟩ := runs
      rw [List.length_cons] at deep
      refine ⟨⟨Nat.lt_succ_of_lt here.before, ?_, here.left⟩, ih rest_runs (by omega)⟩
      intro j from_start before
      rcases Nat.lt_or_eq_of_le (Nat.le_of_lt_succ before) with early | rfl
      · exact here.deep j from_start early
      · exact deep

/-- **Opening.**  The folds opened at a line start their runs there. -/
theorem openTo_spec (runs : Opened levels i opened) (length : opened.length ≤ lineLevel levels i)
    (fresh : i = 0 ∨ opened.length = lineLevel levels i ∨
      lineLevel levels (i - 1) ≤ opened.length) :
    Opened levels (i + 1) (openTo (lineLevel levels i) i opened) ∧
      (openTo (lineLevel levels i) i opened).length = lineLevel levels i := by
  have pushed : ∀ n, opened.length + n ≤ lineLevel levels i →
      Opened levels (i + 1) (List.replicate n i ++ opened) := by
    intro n
    induction n with
    | zero => exact fun _ => runs.further length
    | succ n ih =>
        intro room
        rw [List.replicate_succ, List.cons_append]
        refine ⟨⟨Nat.lt_succ_self i, ?_, ?_⟩, ih (by omega)⟩
        · intro j from_start before
          obtain rfl : j = i := by omega
          rw [List.length_append, List.length_replicate]
          omega
        · rw [List.length_append, List.length_replicate]
          rcases fresh with top | level | shallow
          · exact Or.inl top
          · omega
          · exact Or.inr (by omega)
  refine ⟨pushed _ (by omega), ?_⟩
  rw [openTo, List.length_append, List.length_replicate]
  omega

/-- What is emitted before a line: the runs that ended before the one above it. -/
def EmittedBefore (levels : List Nat) (foldminlines i : Nat) (out : List Range) : Prop :=
  ∀ s e d, (s, e, d) ∈ out ↔
    1 ≤ d ∧ Long foldminlines s e ∧ e + 1 < i ∧ (∀ j, s ≤ j → j ≤ e → d ≤ lineLevel levels j) ∧
      (s = 0 ∨ lineLevel levels (s - 1) < d) ∧ lineLevel levels (e + 1) < d

/-- **The loop.**  By induction on the lines that are left. -/
theorem levelsLoop_spec (rest : List Nat) (i : Nat) (opened : List Nat) (out : List Range)
    (left : levels.drop i = rest) (inside : i ≤ levels.length) (runs : Opened levels i opened)
    (length : opened.length = if i = 0 then 0 else lineLevel levels (i - 1))
    (emitted : EmittedBefore levels foldminlines i out) :
    Opened levels levels.length (levelsLoop foldminlines i rest opened out).1 ∧
      (levelsLoop foldminlines i rest opened out).1.length =
        (if levels.length = 0 then 0 else lineLevel levels (levels.length - 1)) ∧
      EmittedBefore levels foldminlines levels.length
        (levelsLoop foldminlines i rest opened out).2 := by
  induction rest generalizing i opened out with
  | nil =>
      have all : levels.length ≤ i := List.drop_eq_nil_iff.1 left
      obtain rfl : i = levels.length := by omega
      exact ⟨runs, length, emitted⟩
  | cons cur rest ih =>
      have below : i < levels.length := by
        by_contra past
        rw [List.drop_eq_nil_of_le (by omega)] at left
        cases left
      rw [List.drop_eq_getElem_cons below] at left
      obtain ⟨here, left⟩ := List.cons.inj left
      have level : cur = lineLevel levels i := by
        rw [lineLevel, List.getD_eq_getElem?_getD, List.getElem?_eq_getElem below, here]
        rfl
      obtain ⟨still, shorter, members⟩ := closeTo_spec foldminlines cur opened runs out
      rw [levelsLoop]
      simp only
      rw [level] at still shorter members ⊢
      obtain ⟨runs', length'⟩ := openTo_spec still (by rw [shorter]; exact Nat.min_le_right _ _) (by
        rw [shorter, length]
        split
        · next top => exact Or.inl top
        · omega)
      refine ih _ _ _ left below runs' ?_ ?_
      · rw [if_neg (Nat.succ_ne_zero i), length']
        rfl
      · intro s e d
        rw [members, emitted]
        constructor
        · rintro (⟨positive, long, early, deep, start, shallow⟩ |
            ⟨rfl, shallow, reached, long, starts⟩)
          · exact ⟨positive, long, by omega, deep, start, shallow⟩
          · have some_line := starts.before
            have next : i - 1 + 1 = i := by omega
            refine ⟨by omega, long, by omega, ?_, starts.left, by rw [next]; exact shallow⟩
            intro j from_start upto
            exact starts.deep j from_start (by omega)
        · rintro ⟨positive, long, early, deep, start, shallow⟩
          rcases Nat.lt_or_eq_of_le (Nat.le_of_lt_succ early) with before | now
          · exact Or.inl ⟨positive, long, before, deep, start, shallow⟩
          · have ordered := long.1
            refine Or.inr ⟨by omega, by rw [← now]; exact shallow, ?_, long, ?_⟩
            · rw [length, if_neg (by omega)]
              have last := deep e (by omega) (Nat.le_refl e)
              rw [← now]
              exact last
            · exact ⟨by omega, fun j from_start upto => deep j from_start (by omega), start⟩

/-- What the stack emits: every run, at every depth, that is long enough. -/
theorem mem_emitted : (s, e, d) ∈ (closeTo foldminlines 0 (levels.length - 1)
        (levelsLoop foldminlines 0 levels [] []).1 (levelsLoop foldminlines 0 levels [] []).2).2 ↔
      Emitted levels foldminlines d s e := by
  have nothing : EmittedBefore levels foldminlines 0 [] := by
    intro s e d
    constructor
    · intro member
      cases member
    · rintro ⟨-, -, early, -⟩
      omega
  obtain ⟨runs, length, emitted⟩ := levelsLoop_spec levels 0 [] []
    (List.drop_zero : levels.drop 0 = levels) (Nat.zero_le _) trivial rfl nothing
  obtain ⟨-, -, members⟩ := closeTo_spec foldminlines 0 _ runs
    (levelsLoop foldminlines 0 levels [] []).2
  rw [members, emitted]
  constructor
  · rintro (⟨positive, long, early, deep, start, shallow⟩ | ⟨rfl, positive, -, long, starts⟩)
    · have ordered := long.1
      exact ⟨positive, ⟨by omega, by omega, deep, start, shallow⟩, long⟩
    · have some_line := starts.before
      have ordered := long.1
      refine ⟨positive, ⟨by omega, by omega, ?_, starts.left, ?_⟩, long⟩
      · intro j from_start upto
        exact starts.deep j from_start (by omega)
      · rw [lineLevel_past (by omega)]
        exact positive
  · rintro ⟨positive, run, long⟩
    have inside := run.inside
    rcases Nat.lt_or_eq_of_le (Nat.succ_le_of_lt inside) with before | last
    · exact Or.inl ⟨positive, long, before, run.deep, run.left, run.right⟩
    · have ordered := run.ordered
      refine Or.inr ⟨by omega, positive, ?_, long,
        ⟨by omega, fun j from_start upto => run.deep j from_start (by omega), run.left⟩⟩
      rw [length, if_neg (by omega), ← last]
      exact run.deep e (by omega) (Nat.le_refl e)

/-! ### Sorted, and each range once -/

/-- Ranges in order, by start and end. -/
def rangeLt (a b : Range) : Prop := a.1 < b.1 ∨ (a.1 = b.1 ∧ a.2.1 < b.2.1)

instance : Std.Total rangeLe where
  total a b := by
    simp only [rangeLe]
    omega

instance : IsTrans Range rangeLe where
  trans a b c first second := by
    simp only [rangeLe] at first second ⊢
    omega

theorem sameRange_iff {a b : Range} : sameRange a b = true ↔ a.1 = b.1 ∧ a.2.1 = b.2.1 := by
  simp [sameRange]

/-- Of the entries of a range, the sort puts the smallest level first, and that one is kept. -/
theorem dedupFrom_spec {kept : Range} (sorted : (kept :: ranges).Pairwise rangeLe) :
    (dedupFrom kept ranges).Pairwise rangeLt ∧
      (∀ range ∈ dedupFrom kept ranges, range = kept ∨ rangeLt kept range) ∧
      ∀ s e d, (s, e, d) ∈ dedupFrom kept ranges ↔
        (s, e, d) ∈ kept :: ranges ∧ ∀ d', (s, e, d') ∈ kept :: ranges → d ≤ d' := by
  induction ranges generalizing kept with
  | nil =>
      refine ⟨List.pairwise_singleton _ _, ?_, ?_⟩
      · intro range member
        exact Or.inl (List.mem_singleton.1 member)
      · intro s e d
        rw [dedupFrom]
        constructor
        · intro member
          refine ⟨member, ?_⟩
          intro d' other
          have same := (List.mem_singleton.1 member).trans (List.mem_singleton.1 other).symm
          simp only [Prod.mk.injEq, true_and] at same
          exact Nat.le_of_eq same
        · exact fun both => both.1
  | cons range ranges ih =>
      obtain ⟨below, sorted⟩ := List.pairwise_cons.1 sorted
      obtain ⟨below', later⟩ := List.pairwise_cons.1 sorted
      have first := below range List.mem_cons_self
      rw [dedupFrom]
      split
      · next same =>
          obtain ⟨same_start, same_end⟩ := sameRange_iff.1 same
          have onwards : (kept :: ranges).Pairwise rangeLe := by
            refine List.pairwise_cons.2 ⟨?_, later⟩
            intro other member
            exact below other (List.mem_cons_of_mem _ member)
          obtain ⟨strict, above, members⟩ := ih onwards
          refine ⟨strict, above, ?_⟩
          intro s e d
          have smaller : ∀ d', (s, e, d') = range → (s, e, kept.2.2) = kept ∧ kept.2.2 ≤ d' := by
            rintro d' rfl
            obtain ⟨ks, ke, kd⟩ := kept
            simp only [rangeLe] at first same_start same_end ⊢
            refine ⟨?_, by omega⟩
            rw [same_start, same_end]
          rw [members]
          constructor
          · rintro ⟨member, least⟩
            refine ⟨?_, ?_⟩
            · rcases List.mem_cons.1 member with rfl | member
              · exact List.mem_cons_self
              · exact List.mem_cons_of_mem _ (List.mem_cons_of_mem _ member)
            · intro d' other
              rcases List.mem_cons.1 other with rfl | other
              · exact least d' List.mem_cons_self
              · rcases List.mem_cons.1 other with here | other
                · obtain ⟨is_kept, less⟩ := smaller d' here
                  have bound := least kept.2.2 (by rw [is_kept]; exact List.mem_cons_self)
                  omega
                · exact least d' (List.mem_cons_of_mem _ other)
          · rintro ⟨member, least⟩
            refine ⟨?_, ?_⟩
            · rcases List.mem_cons.1 member with rfl | member
              · exact List.mem_cons_self
              · rcases List.mem_cons.1 member with here | member
                · obtain ⟨is_kept, less⟩ := smaller d here
                  have bound := least kept.2.2 (by rw [is_kept]; exact List.mem_cons_self)
                  obtain rfl : d = kept.2.2 := by omega
                  rw [is_kept]
                  exact List.mem_cons_self
                · exact List.mem_cons_of_mem _ member
            · intro d' other
              rcases List.mem_cons.1 other with rfl | other
              · exact least d' List.mem_cons_self
              · exact least d' (List.mem_cons_of_mem _ (List.mem_cons_of_mem _ other))
      · next other_range =>
          obtain ⟨strict, above, members⟩ := ih sorted
          have further : rangeLt kept range := by
            have apart : ¬ (range.1 = kept.1 ∧ range.2.1 = kept.2.1) := fun same =>
              other_range (sameRange_iff.2 same)
            simp only [rangeLe] at first
            simp only [rangeLt]
            omega
          have all_above : ∀ other ∈ dedupFrom range ranges, rangeLt kept other := by
            intro other member
            rcases above other member with rfl | beyond
            · exact further
            · simp only [rangeLt] at further beyond ⊢
              omega
          have past : ∀ other ∈ range :: ranges, rangeLt kept other := by
            intro other member
            rcases List.mem_cons.1 member with rfl | member
            · exact further
            · have ordered := below' other member
              simp only [rangeLe] at ordered
              simp only [rangeLt] at further ⊢
              omega
          refine ⟨List.pairwise_cons.2 ⟨all_above, strict⟩, ?_, ?_⟩
          · intro other member
            rcases List.mem_cons.1 member with rfl | member
            · exact Or.inl rfl
            · exact Or.inr (all_above other member)
          · intro s e d
            constructor
            · intro member
              rcases List.mem_cons.1 member with same | member
              · refine ⟨by rw [same]; exact List.mem_cons_self, ?_⟩
                intro d' other
                rcases List.mem_cons.1 other with same' | other
                · have levels_same := same.trans same'.symm
                  simp only [Prod.mk.injEq, true_and] at levels_same
                  exact Nat.le_of_eq levels_same
                · have beyond := past _ other
                  rw [← same] at beyond
                  simp only [rangeLt] at beyond
                  omega
              · obtain ⟨there, least⟩ := (members s e d).1 member
                refine ⟨List.mem_cons_of_mem _ there, ?_⟩
                intro d' other
                rcases List.mem_cons.1 other with same | other
                · have beyond := past _ there
                  rw [← same] at beyond
                  simp only [rangeLt] at beyond
                  omega
                · exact least d' other
            · rintro ⟨member, least⟩
              rcases List.mem_cons.1 member with same | member
              · rw [same]
                exact List.mem_cons_self
              · refine List.mem_cons_of_mem _ ((members s e d).2 ⟨member, ?_⟩)
                intro d' other
                exact least d' (List.mem_cons_of_mem _ other)

theorem dedupRanges_spec (sorted : ranges.Pairwise rangeLe) :
    (dedupRanges ranges).Pairwise rangeLt ∧
      ∀ s e d, (s, e, d) ∈ dedupRanges ranges ↔
        (s, e, d) ∈ ranges ∧ ∀ d', (s, e, d') ∈ ranges → d ≤ d' := by
  cases ranges with
  | nil =>
      refine ⟨List.Pairwise.nil, ?_⟩
      intro s e d
      simp [dedupRanges]
  | cons range ranges =>
      obtain ⟨strict, -, members⟩ := dedupFrom_spec sorted
      exact ⟨strict, members⟩

/-- **The ranges.**  Exactly the runs that are long enough, at the smallest of their depths. -/
theorem mem_rangesFromLevels (levels : List Nat) (foldminlines : Nat) :
    (rangesFromLevels levels foldminlines).Pairwise rangeLt ∧
      ∀ s e d, (s, e, d) ∈ rangesFromLevels levels foldminlines ↔
        Emitted levels foldminlines d s e ∧
          ∀ d', Emitted levels foldminlines d' s e → d ≤ d' := by
  have sorted := List.pairwise_insertionSort rangeLe (closeTo foldminlines 0 (levels.length - 1)
    (levelsLoop foldminlines 0 levels [] []).1 (levelsLoop foldminlines 0 levels [] []).2).2
  obtain ⟨strict, members⟩ := dedupRanges_spec sorted
  refine ⟨strict, ?_⟩
  intro s e d
  have whole := members s e d
  simp only [List.mem_insertionSort, mem_emitted] at whole
  exact whole

/-! ### Ranges around a range -/

/-- A run around another, and not the same, is shallower. -/
theorem IsRun.shallower {a : Nat} (outer : IsRun levels a s' e') (run : IsRun levels d s e)
    (around : s' ≤ s ∧ e ≤ e') (other : s' ≠ s ∨ e' ≠ e) : a < d := by
  by_contra deeper
  have ordered := run.ordered
  have inside := run.nested outer (Nat.le_of_not_lt deeper) ⟨by omega, by omega⟩
  omega

theorem exists_left (deep : k ≤ lineLevel levels i) :
    ∃ s, s ≤ i ∧ (∀ j, s ≤ j → j ≤ i → k ≤ lineLevel levels j) ∧
      (s = 0 ∨ lineLevel levels (s - 1) < k) := by
  induction i with
  | zero =>
      refine ⟨0, Nat.le_refl 0, ?_, Or.inl rfl⟩
      intro j _ upto
      obtain rfl : j = 0 := by omega
      exact deep
  | succ i ih =>
      by_cases above : k ≤ lineLevel levels i
      · obtain ⟨s, before, all, left⟩ := ih above
        refine ⟨s, by omega, ?_, left⟩
        intro j from_start upto
        rcases Nat.lt_or_eq_of_le upto with early | rfl
        · exact all j from_start (by omega)
        · exact deep
      · refine ⟨i + 1, Nat.le_refl _, ?_, Or.inr (by simpa using above)⟩
        intro j from_start upto
        obtain rfl : j = i + 1 := by omega
        exact deep

theorem exists_right (positive : 1 ≤ k) (deep : k ≤ lineLevel levels i) :
    ∃ e, i ≤ e ∧ e < levels.length ∧ (∀ j, i ≤ j → j ≤ e → k ≤ lineLevel levels j) ∧
      lineLevel levels (e + 1) < k := by
  have inside : i < levels.length := by
    by_contra past
    rw [lineLevel_past (by omega)] at deep
    omega
  induction rest : levels.length - i generalizing i with
  | zero => omega
  | succ rest_lines ih =>
      by_cases below : k ≤ lineLevel levels (i + 1)
      · have inside' : i + 1 < levels.length := by
          by_contra past
          rw [lineLevel_past (by omega)] at below
          omega
        obtain ⟨e, behind, last, all, right⟩ := ih below inside' (by omega)
        refine ⟨e, by omega, last, ?_, right⟩
        intro j from_start upto
        rcases Nat.lt_or_eq_of_le from_start with late | rfl
        · exact all j late upto
        · exact deep
      · refine ⟨i, Nat.le_refl i, inside, ?_, by omega⟩
        intro j from_start upto
        obtain rfl : j = i := by omega
        exact deep

/-- Around a run there is one at each smaller depth. -/
theorem IsRun.widen (run : IsRun levels d s e) (positive : 1 ≤ k) (below : k ≤ d) :
    ∃ s' e', s' ≤ s ∧ e ≤ e' ∧ IsRun levels k s' e' := by
  have ordered := run.ordered
  obtain ⟨s', before, front, left⟩ :=
    exists_left (Nat.le_trans below (run.deep s (Nat.le_refl s) ordered))
  obtain ⟨e', behind, inside, back, right⟩ :=
    exists_right positive (Nat.le_trans below (run.deep e ordered (Nat.le_refl e)))
  refine ⟨s', e', before, behind, ⟨by omega, inside, ?_, left, right⟩⟩
  intro i from_start upto
  rcases Nat.lt_or_ge i s with early | later
  · exact front i from_start (by omega)
  · rcases Nat.lt_or_ge e i with late | within
    · exact back i (by omega) upto
    · exact Nat.le_trans below (run.deep i later within)

/-- The ranges strictly around one. -/
def around (ranges : List Range) (r : Range) : List Range :=
  ranges.filter fun o => o.1 ≤ r.1 && r.2.1 ≤ o.2.1 && !sameRange o r

theorem mem_around {r o : Range} : o ∈ around ranges r ↔
      o ∈ ranges ∧ (o.1 ≤ r.1 ∧ r.2.1 ≤ o.2.1) ∧ (o.1 ≠ r.1 ∨ o.2.1 ≠ r.2.1) := by
  rw [around, List.mem_filter]
  simp only [Bool.and_eq_true, decide_eq_true_eq, Bool.not_eq_true', sameRange, Bool.and_eq_false_iff,
    beq_eq_false_iff_ne]

/-- No range around this one is a run at two depths. -/
def PlainAt (levels : List Nat) (foldminlines s e : Nat) : Prop :=
  ∀ s' e' a b, Emitted levels foldminlines a s' e' → Emitted levels foldminlines b s' e' →
    s' ≤ s → e ≤ e' → s' ≠ s ∨ e' ≠ e → a = b

/-- A range is made for every run that is long enough, at some depth. -/
theorem exists_least (emitted : Emitted levels foldminlines d s e) :
    ∃ least, least ≤ d ∧ (s, e, least) ∈ rangesFromLevels levels foldminlines := by
  classical
  have some_depth : ∃ d, Emitted levels foldminlines d s e := ⟨d, emitted⟩
  refine ⟨Nat.find some_depth, Nat.find_min' some_depth emitted, ?_⟩
  exact ((mem_rangesFromLevels levels foldminlines).2 s e _).2
    ⟨Nat.find_spec some_depth, fun d' other => Nat.find_min' some_depth other⟩

/-- The depths of the ranges around one are different numbers below its own. -/
theorem around_depths (here : (s, e, d) ∈ rangesFromLevels levels foldminlines) :
    ((around (rangesFromLevels levels foldminlines) (s, e, d)).map fun o => o.2.2).Nodup ∧
      ∀ k ∈ (around (rangesFromLevels levels foldminlines) (s, e, d)).map (fun o => o.2.2),
        k ∈ Finset.Ico 1 d := by
  obtain ⟨strict, members⟩ := mem_rangesFromLevels levels foldminlines
  have emitted := ((members s e d).1 here).1
  have surrounds : ∀ o ∈ around (rangesFromLevels levels foldminlines) (s, e, d),
      Emitted levels foldminlines o.2.2 o.1 o.2.1 ∧ (o.1 ≤ s ∧ e ≤ o.2.1) ∧
        (o.1 ≠ s ∨ o.2.1 ≠ e) := by
    rintro ⟨s', e', a⟩ member
    obtain ⟨there, wide, other⟩ := mem_around.1 member
    exact ⟨((members s' e' a).1 there).1, wide, other⟩
  constructor
  · rw [List.Nodup, List.pairwise_map]
    refine (strict.filter _).imp_of_mem ?_
    intro one other member member' apart same
    obtain ⟨emitted_one, wide, -⟩ := surrounds one member
    obtain ⟨emitted_other, wide', -⟩ := surrounds other member'
    have ordered := emitted.run.ordered
    rw [← same] at emitted_other
    have equal := emitted_one.run.unique emitted_other.run ⟨by omega, by omega⟩
    simp only [rangeLt] at apart
    omega
  · intro k member
    obtain ⟨o, there, rfl⟩ := List.mem_map.1 member
    obtain ⟨emitted_o, wide, other⟩ := surrounds o there
    exact Finset.mem_Ico.2 ⟨emitted_o.positive, emitted_o.run.shallower emitted.run wide other⟩

/-- **How many ranges surround one.** -/
theorem around_length_iff (here : (s, e, d) ∈ rangesFromLevels levels foldminlines) :
    1 + (around (rangesFromLevels levels foldminlines) (s, e, d)).length = d ↔
      PlainAt levels foldminlines s e := by
  obtain ⟨strict, members⟩ := mem_rangesFromLevels levels foldminlines
  obtain ⟨emitted, least⟩ := (members s e d).1 here
  obtain ⟨distinct, below⟩ := around_depths here
  have positive := emitted.positive
  have ordered := emitted.run.ordered
  have card := List.toFinset_card_of_nodup distinct
  rw [List.length_map] at card
  have subset : ((around (rangesFromLevels levels foldminlines) (s, e, d)).map
      fun o => o.2.2).toFinset ⊆ Finset.Ico 1 d := by
    intro k member
    exact below k (List.mem_toFinset.1 member)
  constructor
  · intro count
    have all := Finset.eq_of_subset_of_card_le subset (by rw [card, Nat.card_Ico]; omega)
    -- The deeper of two depths of one range would be no range's smallest.
    have deeper : ∀ s' e' a b, Emitted levels foldminlines a s' e' →
        Emitted levels foldminlines b s' e' → s' ≤ s → e ≤ e' → s' ≠ s ∨ e' ≠ e → ¬ a < b := by
      intro s' e' a b at_a at_b front back other lower
      have room : b ∈ Finset.Ico 1 d :=
        Finset.mem_Ico.2 ⟨at_b.positive, at_b.run.shallower emitted.run ⟨front, back⟩ other⟩
      rw [← all, List.mem_toFinset] at room
      obtain ⟨⟨s'', e'', k⟩, there, same⟩ := List.mem_map.1 room
      obtain rfl : k = b := same
      obtain ⟨ranged, wide, -⟩ := mem_around.1 there
      obtain ⟨at_k, least_k⟩ := (members s'' e'' k).1 ranged
      simp only at wide
      obtain ⟨rfl, rfl⟩ := at_k.run.unique at_b.run ⟨by omega, by omega⟩
      have bound := least_k a at_a
      omega
    intro s' e' a b at_a at_b front back other
    have one := deeper s' e' a b at_a at_b front back other
    have two := deeper s' e' b a at_b at_a front back other
    omega
  · intro plain
    have superset : Finset.Ico 1 d ⊆ ((around (rangesFromLevels levels foldminlines) (s, e, d)).map
        fun o => o.2.2).toFinset := by
      intro k member
      obtain ⟨some_depth, lower⟩ := Finset.mem_Ico.1 member
      obtain ⟨s', e', front, back, run⟩ := emitted.run.widen some_depth (Nat.le_of_lt lower)
      have long : Long foldminlines s' e' := by
        obtain ⟨two_lines, enough⟩ := emitted.long
        exact ⟨by omega, by omega⟩
      have at_k : Emitted levels foldminlines k s' e' := ⟨some_depth, run, long⟩
      have other : s' ≠ s ∨ e' ≠ e := by
        by_contra same
        have start_same : s' = s := by omega
        have end_same : e' = e := by omega
        have bound := least k (by rw [← start_same, ← end_same]; exact at_k)
        omega
      obtain ⟨first, -, ranged⟩ := exists_least at_k
      have at_first := ((members s' e' first).1 ranged).1
      obtain rfl := plain s' e' first k at_first at_k front back other
      exact List.mem_toFinset.2 (List.mem_map.2
        ⟨(s', e', first), mem_around.2 ⟨ranged, ⟨front, back⟩, other⟩, rfl⟩)
    have equal := Finset.card_le_card superset
    have equal' := Finset.card_le_card subset
    rw [card, Nat.card_Ico] at equal equal'
    omega

/-! ### The folds made of them -/

/-- The folds built where none was before. -/
def built (levels : List Nat) (foldminlines foldlevel : Nat) : FoldState :=
  FoldState.empty.rebuildComputed (rangesFromLevels levels foldminlines) foldlevel

/-- A range as a fold. -/
def foldOf (foldlevel : Nat) (r : Range) : Fold := ⟨r.1, r.2.1, foldlevel < r.2.2⟩

theorem built_perm (levels : List Nat) (foldminlines foldlevel : Nat) :
    (built levels foldminlines foldlevel).folds.Perm
      ((rangesFromLevels levels foldminlines).map (foldOf foldlevel)) :=
  List.perm_insertionSort _ _

theorem levelAt_foldOf (levels : List Nat) (foldminlines foldlevel : Nat) (r : Range) :
    (built levels foldminlines foldlevel).levelAt (foldOf foldlevel r) =
      1 + (around (rangesFromLevels levels foldminlines) r).length := by
  rw [FoldState.levelAt, ((built_perm levels foldminlines foldlevel).filter _).length_eq,
    List.filter_map, List.length_map]
  rfl

/-- What the folds of levels are to be: exactly the runs that are long enough, each at its smallest
depth, nested or apart, and closed as `'foldlevel'` closes them when it is set again. -/
structure Consistent (levels : List Nat) (foldminlines : Nat) : Prop where
  distinct : (rangesFromLevels levels foldminlines).Pairwise fun a b =>
    a.1 ≠ b.1 ∨ a.2.1 ≠ b.2.1
  runs : ∀ s e d, (s, e, d) ∈ rangesFromLevels levels foldminlines ↔
    Emitted levels foldminlines d s e ∧ ∀ d', Emitted levels foldminlines d' s e → d ≤ d'
  laminar : ∀ a ∈ rangesFromLevels levels foldminlines,
    ∀ b ∈ rangesFromLevels levels foldminlines,
      a.2.1 < b.1 ∨ b.2.1 < a.1 ∨ (a.1 ≤ b.1 ∧ b.2.1 ≤ a.2.1) ∨ (b.1 ≤ a.1 ∧ a.2.1 ≤ b.2.1)
  inside : ∀ r ∈ rangesFromLevels levels foldminlines, r.2.1 < levels.length
  closed : ∀ foldlevel, (built levels foldminlines foldlevel).applyFoldlevel foldlevel =
    built levels foldminlines foldlevel
  level : ∀ foldlevel, ∀ r ∈ rangesFromLevels levels foldminlines,
    (built levels foldminlines foldlevel).levelAt (foldOf foldlevel r) = r.2.2

/-- No range strictly around another is a run at two depths. -/
def Plain (levels : List Nat) (foldminlines : Nat) : Prop :=
  ∀ s e d, Emitted levels foldminlines d s e → PlainAt levels foldminlines s e

/-- **Folds of levels are consistent exactly if no range around another is a run at two depths.** -/
theorem fold_ranges_iff (levels : List Nat) (foldminlines : Nat) :
    Consistent levels foldminlines ↔ Plain levels foldminlines := by
  obtain ⟨strict, members⟩ := mem_rangesFromLevels levels foldminlines
  constructor
  · intro consistent s e d emitted
    obtain ⟨least, -, ranged⟩ := exists_least emitted
    apply (around_length_iff ranged).1
    rw [← levelAt_foldOf levels foldminlines 0]
    exact consistent.level 0 _ ranged
  · intro plain
    have level : ∀ foldlevel, ∀ r ∈ rangesFromLevels levels foldminlines,
        (built levels foldminlines foldlevel).levelAt (foldOf foldlevel r) = r.2.2 := by
      rintro foldlevel ⟨s, e, d⟩ ranged
      rw [levelAt_foldOf]
      exact (around_length_iff ranged).2 (plain s e d ((members s e d).1 ranged).1)
    refine ⟨?_, members, ?_, ?_, ?_, level⟩
    · refine strict.imp ?_
      intro a b apart
      simp only [rangeLt] at apart
      omega
    · rintro ⟨s, e, d⟩ member ⟨s', e', d'⟩ member'
      have run := ((members s e d).1 member).1.run
      have run' := ((members s' e' d').1 member').1.run
      by_cases meets : s ≤ e' ∧ s' ≤ e
      · rcases Nat.le_total d d' with shallower | deeper
        · exact Or.inr (Or.inr (Or.inl (run.nested run' shallower meets)))
        · exact Or.inr (Or.inr (Or.inr (run'.nested run deeper ⟨meets.2, meets.1⟩)))
      · simp only
        omega
    · rintro ⟨s, e, d⟩ member
      exact ((members s e d).1 member).1.run.inside
    · intro foldlevel
      unfold FoldState.applyFoldlevel
      have same : (built levels foldminlines foldlevel).folds.map (fun fold =>
          { fold with closed := decide (foldlevel <
            (built levels foldminlines foldlevel).levelAt fold) }) =
          (built levels foldminlines foldlevel).folds.map id := by
        apply List.map_congr_left
        intro fold member
        obtain ⟨r, ranged, rfl⟩ :=
          List.mem_map.1 ((built_perm levels foldminlines foldlevel).mem_iff.1 member)
        rw [level foldlevel r ranged]
        rfl
      rw [same, List.map_id]

/-- Levels that jump by two: the fold over all five lines is a run at depths 1 and 2, and the fold
inside it is built at level 3, where only one fold surrounds it. -/
theorem fold_levels_jump :
    (built [2, 2, 3, 3, 2] 1 2).applyFoldlevel 2 ≠ built [2, 2, 3, 3, 2] 1 2 ∧
      ¬ Consistent [2, 2, 3, 3, 2] 1 := by
  have differs : (built [2, 2, 3, 3, 2] 1 2).applyFoldlevel 2 ≠ built [2, 2, 3, 3, 2] 1 2 := by
    decide +kernel
  exact ⟨differs, fun consistent => differs (consistent.closed 2)⟩

end Bemtvi.Core.FoldLevels
