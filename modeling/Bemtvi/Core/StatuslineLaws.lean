/-
Module: Bemtvi.Core.StatuslineLaws
Purpose: What the status line's layout keeps: how its cells fill the width, what a truncation takes, where
  fill goes, and which cells a click region spans.
Trusted boundary: none
Main exports: Filled, Cut, ClickRuns, expand_calls, flatten_places, layout_with_clicks_fits
-/
import Bemtvi.Core.Statusline

namespace Bemtvi.Core.Statusline

/-! ### Expansion -/

section
variable {σ : Type} {parse : List Char → Except (List Char) (List Item)} {ctx : StatuslineCtx}
  {eval : σ → ExprKind → List Char → σ × List Char}

/-- The calls made are those counted, and few. -/
def Few (e : Expansion (σ × Nat)) : Prop := e.host.2 = e.evals ∧ e.evals ≤ maxExprEvals

variable {e : Expansion (σ × Nat)}

theorem Few.call (few : Few e) (more : ¬ maxExprEvals ≤ e.evals) (kind : ExprKind)
    (raw : List Char) :
    Few { e with evals := e.evals + 1, host := (counted eval e.host kind raw).1 } :=
  ⟨congrArg (· + 1) few.1, Nat.lt_of_not_le more⟩

/-- **An expansion keeps its calls few.** -/
theorem expandInto_few {depth : Nat} {items : List Item} (few : Few e) :
    Few (expandInto parse ctx (counted eval) depth items e) := by
  induction depth, items, e using expandInto.induct parse ctx (counted eval) with
  | case1 depth e =>
      rw [expandInto]
      exact few
  | case2 depth e text items ih =>
      rw [expandInto]
      exact ih few
  | case3 depth e field items ih =>
      rw [expandInto]
      exact ih few
  | case4 depth e group items ih =>
      rw [expandInto]
      exact ih few
  | case5 depth e items ih =>
      rw [expandInto]
      exact ih few
  | case6 depth e items ih =>
      rw [expandInto]
      exact ih few
  | case7 depth e action items ih =>
      rw [expandInto]
      exact ih few
  | case8 depth e items ih =>
      rw [expandInto]
      exact ih few
  | case9 depth e kind raw items many =>
      rw [expandInto, if_pos many]
      exact few
  | case10 depth e raw items more result e' ih =>
      rw [expandInto, if_neg more]
      simp only [if_true]
      exact ih (few.call more .eval raw)
  | case11 depth e kind raw items more other deep =>
      rw [expandInto, if_neg more]
      simp only [other, if_false, if_pos deep]
      exact few.call more kind raw
  | case12 depth e kind raw items more result e' other shallow sub parsed ih _ ih' =>
      rw [expandInto, if_neg more]
      simp only [other, if_false, if_neg shallow]
      simp only [result] at parsed
      rw [parsed]
      exact ih' (ih (few.call more kind raw))
  | case13 depth e kind raw items more result e' other shallow message parsed ih =>
      rw [expandInto, if_neg more]
      simp only [other, if_false, if_neg shallow]
      simp only [result] at parsed
      rw [parsed]
      exact ih (few.call more kind raw)

/-- **Expressions are evaluated a bounded number of times.** -/
theorem expand_calls (items : List Item) (host : σ) :
    (expand parse ctx (counted eval) items (host, 0)).host.2 ≤ maxExprEvals := by
  have few : Few (expandInto parse ctx (counted eval) 0 items ⟨none, [], 0, (host, 0)⟩) :=
    expandInto_few ⟨rfl, Nat.zero_le _⟩
  exact few.1 ▸ few.2

end

/-! ### Columns -/

@[simp] theorem columns_nil : columns [] = 0 := rfl

@[simp] theorem columns_cons (c : Cell) (cells : List Cell) :
    columns (c :: cells) = c.width + columns cells := by
  rw [columns, List.map_cons, List.sum_cons, ← columns]

@[simp] theorem columns_append (front back : List Cell) :
    columns (front ++ back) = columns front + columns back := by
  rw [columns, List.map_append, List.sum_append, ← columns, ← columns]

@[simp] theorem columns_fill (n : Nat) (group : Option (List Char)) :
    columns (List.replicate n (blank group)) = n := by
  rw [columns, List.map_replicate, List.sum_replicate_nat, blank]
  exact Nat.mul_one n

theorem columns_split (cells : List Cell) (n : Nat) :
    columns (cells.take n) + columns (cells.drop n) = columns cells := by
  rw [← columns_append, List.take_append_drop]

/-! ### Fill -/

/-- Cells with fill among them, at the markers from an index on. -/
inductive Filled : Nat → List Cell → List Nat → List Cell → Prop where
  | done (idx : Nat) : Filled idx [] [] []
  | gap {idx : Nat} {cells : List Cell} {markers : List Nat} {out : List Cell} (n : Nat)
      (group : Option (List Char)) (rest : Filled idx cells markers out) :
      Filled idx cells (idx :: markers) (List.replicate n (blank group) ++ out)
  | cell {idx : Nat} {cells : List Cell} {markers : List Nat} {out : List Cell} (c : Cell)
      (rest : Filled (idx + 1) cells markers out) : Filled idx (c :: cells) markers (c :: out)

/-- Markers in order, between two indices. -/
def Marked (idx stop : Nat) (markers : List Nat) : Prop :=
  markers.Pairwise (· ≤ ·) ∧ ∀ marker ∈ markers, idx ≤ marker ∧ marker ≤ stop

variable {idx : Nat} {markers : List Nat} {cells out : List Cell}

theorem Marked.tail {stop marker : Nat} (marked : Marked idx stop (marker :: markers)) :
    Marked idx stop markers :=
  ⟨marked.1.of_cons, fun marker' member => marked.2 marker' (List.mem_cons_of_mem marker member)⟩

theorem Marked.later {stop marker : Nat} (marked : Marked idx stop (marker :: markers))
    (apart : marker ≠ idx) : Marked (idx + 1) stop (marker :: markers) := by
  have first := (marked.2 marker (List.mem_cons_self ..)).1
  refine ⟨marked.1, fun marker' member => ⟨?_, (marked.2 marker' member).2⟩⟩
  rcases List.mem_cons.1 member with rfl | member
  · omega
  · have := List.rel_of_pairwise_cons marked.1 member
    omega

/-- The columns of the fill for markers. -/
def gaps (standard final : Nat) : Nat → Nat
  | 0 => 0
  | 1 => final
  | n + 2 => standard + gaps standard final (n + 1)

theorem gaps_eq (standard final n : Nat) : gaps standard final (n + 1) = standard * n + final := by
  induction n with
  | zero => rw [gaps, Nat.mul_zero, Nat.zero_add]
  | succ n ih =>
      rw [gaps, ih, Nat.mul_succ]
      omega

theorem gaps_cons (standard final marker : Nat) (markers : List Nat) :
    gaps standard final (marker :: markers).length =
      (if markers = [] then final else standard) + gaps standard final markers.length := by
  cases markers with
  | nil => rw [if_pos rfl]; rfl
  | cons marker' markers =>
      rw [if_neg (List.cons_ne_nil marker' markers)]
      rfl

section
variable {standard final : Nat}

/-- The fill at an index. -/
theorem fillAt_spec (group : Option (List Char)) {idx stop : Nat} {markers : List Nat}
    (marked : Marked idx stop markers) :
    Marked (idx + 1) stop (fillAt standard final group idx markers).2 ∧
      columns (fillAt standard final group idx markers).1 +
        gaps standard final (fillAt standard final group idx markers).2.length =
          gaps standard final markers.length ∧
      ∀ cells out, Filled idx cells (fillAt standard final group idx markers).2 out →
        Filled idx cells markers ((fillAt standard final group idx markers).1 ++ out) := by
  induction markers with
  | nil =>
      rw [fillAt]
      exact ⟨⟨List.Pairwise.nil, by rintro marker ⟨⟩⟩, Nat.zero_add _, fun cells out filled => filled⟩
  | cons marker markers ih =>
      rw [fillAt]
      by_cases here : marker = idx
      · obtain ⟨marked', total, filled'⟩ := ih marked.tail
        simp only [here, if_true]
        refine ⟨marked', ?_, fun cells out filled => ?_⟩
        · rw [gaps_cons, columns_append, columns_fill, Nat.add_assoc, total]
        · rw [List.append_assoc]
          exact .gap _ group (filled' cells out filled)
      · simp only [here, if_false]
        exact ⟨marked.later here, Nat.zero_add _, fun cells out filled => filled⟩

theorem fillEnd_spec (group : Option (List Char)) {idx : Nat} {markers : List Nat}
    (marked : Marked idx idx markers) :
    columns (fillEnd standard final group markers) = gaps standard final markers.length ∧
      Filled idx [] markers (fillEnd standard final group markers) := by
  induction markers with
  | nil => exact ⟨rfl, .done idx⟩
  | cons marker markers ih =>
      obtain ⟨total, filled⟩ := ih marked.tail
      have bounds := marked.2 marker (List.mem_cons_self ..)
      have here : marker = idx := Nat.le_antisymm bounds.2 bounds.1
      rw [fillEnd, here]
      refine ⟨?_, .gap _ group filled⟩
      rw [gaps_cons, columns_append, columns_fill, total]

/-- **The loop: the cells are kept, the fill stands at the markers.** -/
theorem fillFrom_spec {cells : List Cell} {idx : Nat} {before : Option Cell} {markers : List Nat}
    (marked : Marked idx (idx + cells.length) markers) :
    columns (fillFrom standard final idx before markers cells) =
        columns cells + gaps standard final markers.length ∧
      Filled idx cells markers (fillFrom standard final idx before markers cells) := by
  induction cells generalizing idx before markers with
  | nil =>
      obtain ⟨total, filled⟩ := @fillEnd_spec standard final (before.bind (·.group)) _ _ marked
      rw [fillFrom, total, columns_nil, Nat.zero_add]
      exact ⟨rfl, filled⟩
  | cons c cells ih =>
      obtain ⟨later, total, filled⟩ := @fillAt_spec standard final (before.bind (·.group)) _ _ _ marked
      rw [List.length_cons, Nat.add_comm cells.length, ← Nat.add_assoc] at later
      obtain ⟨total', filled'⟩ := @ih _ (some c) _ later
      rw [fillFrom]
      refine ⟨?_, filled (c :: cells) _ (.cell c filled')⟩
      rw [columns_append, columns_cons, columns_cons, total', ← total]
      omega

end

theorem Filled.closed (rest : Filled idx cells markers out) :
    Filled idx cells (idx :: markers) out :=
  .gap 0 none rest

/-- A text that no fill is put in. -/
theorem Filled.plain (marked : Marked idx (idx + cells.length) markers) :
    Filled idx cells markers cells := by
  induction cells generalizing idx markers with
  | nil =>
      induction markers with
      | nil => exact .done idx
      | cons marker markers ih =>
          have bounds := marked.2 marker (List.mem_cons_self ..)
          have here : marker = idx := Nat.le_antisymm bounds.2 bounds.1
          rw [here]
          exact (ih marked.tail).closed
  | cons c cells ih =>
      induction markers with
      | nil => exact .cell c (ih ⟨List.Pairwise.nil, by rintro marker ⟨⟩⟩)
      | cons marker markers ih' =>
          by_cases here : marker = idx
          · rw [here]
            exact (ih' marked.tail).closed
          · have later := marked.later here
            rw [List.length_cons, Nat.add_comm cells.length, ← Nat.add_assoc] at later
            exact .cell c (ih later)

/-! ### Truncation -/

/-- A line cut to a width: one run of cells is gone, a mark stands for it, and the width is reached unless
the cell at the edge of what is gone is two wide. -/
inductive Cut (width : Nat) (chars cells : List Cell) : Prop where
  | before (front lost back : List Cell) (group : Option (List Char)) (whole : chars = front ++ lost ++ back)
      (some_lost : lost ≠ []) (kept : cells = front ++ [⟨'<', 1, group, none⟩] ++ back)
      (reached : columns cells = width ∨
        (columns cells + 1 = width ∧ ∃ edge, lost.getLast? = some edge ∧ edge.width = 2))
  | behind (front lost : List Cell) (group : Option (List Char)) (whole : chars = front ++ lost)
      (some_lost : lost ≠ []) (kept : cells = front ++ [⟨'>', 1, group, none⟩])
      (reached : columns cells = width ∨
        (columns cells + 1 = width ∧ ∃ edge, lost.head? = some edge ∧ edge.width = 2))

theorem keptCells_spec {width : Nat} {cells : List Cell} {acc : Nat} (within : acc + 1 ≤ width)
    (wide : width < acc + columns cells) (narrow : ∀ c ∈ cells, c.width ≤ 2) :
    ∃ edge rest, cells.drop (keptCells width acc cells) = edge :: rest ∧
      (acc + columns (cells.take (keptCells width acc cells)) + 1 = width ∨
        (acc + columns (cells.take (keptCells width acc cells)) + 2 = width ∧ edge.width = 2)) := by
  induction cells generalizing acc with
  | nil =>
      rw [columns_nil] at wide
      omega
  | cons c cells ih =>
      have small := narrow c (List.mem_cons_self ..)
      rw [keptCells]
      by_cases last : acc + c.width + 1 > width
      · rw [if_pos last, List.drop_zero, List.take_zero, columns_nil]
        refine ⟨c, cells, rfl, ?_⟩
        omega
      · rw [if_neg last]
        rw [columns_cons] at wide
        obtain ⟨edge, rest, found, reached⟩ := @ih (acc + c.width) (by omega) (by omega)
          fun c' member => narrow c' (List.mem_cons_of_mem c member)
        refine ⟨edge, rest, found, ?_⟩
        rw [List.take_succ_cons, columns_cons]
        omega

theorem droppedCells_spec {width : Nat} {cells : List Cell} {front : Nat} (short : front < width)
    (wide : width ≤ front + columns cells) (narrow : ∀ c ∈ cells, c.width ≤ 2) :
    ∃ lost edge, cells.take (droppedCells width (front + columns cells) cells) = lost ++ [edge] ∧
      (front + columns (cells.drop (droppedCells width (front + columns cells) cells)) + 1 = width ∨
        (front + columns (cells.drop (droppedCells width (front + columns cells) cells)) + 2 = width ∧
          edge.width = 2)) := by
  induction cells with
  | nil =>
      rw [columns_nil] at wide
      omega
  | cons c cells ih =>
      have small := narrow c (List.mem_cons_self ..)
      have left : front + columns (c :: cells) - c.width = front + columns cells := by
        rw [columns_cons]
        omega
      rw [droppedCells, if_pos wide, left, List.take_succ_cons, List.drop_succ_cons]
      by_cases more : width ≤ front + columns cells
      · obtain ⟨lost, edge, found, reached⟩ := ih more
          fun c' member => narrow c' (List.mem_cons_of_mem c member)
        exact ⟨c :: lost, edge, by rw [found, List.cons_append], reached⟩
      · have done : droppedCells width (front + columns cells) cells = 0 := by
          cases cells with
          | nil => rfl
          | cons c' cells => rw [droppedCells, if_neg more]
        rw [columns_cons] at wide
        rw [done, List.take_zero, List.drop_zero]
        refine ⟨[], c, rfl, ?_⟩
        omega

/-- **A line that is too wide is cut.** -/
theorem truncate_cut {width : Nat} {chars : List Cell} (truncPosition firstItem : Option Nat)
    (positive : 0 < width) (wide : width < columns chars) (narrow : ∀ c ∈ chars, c.width ≤ 2) :
    Cut width chars (truncate chars truncPosition firstItem width) := by
  rw [truncate]
  split
  · obtain ⟨edge, rest, found, reached⟩ := @keptCells_spec width chars 0 positive (by omega) narrow
    refine .behind (chars.take (keptCells width 0 chars)) (edge :: rest) _ ?_ (List.cons_ne_nil edge rest) rfl ?_
    · rw [← found, List.take_append_drop]
    · simp only [columns_append, columns_cons, columns_nil, List.head?_cons, Option.some.injEq,
        exists_eq_left']
      omega
  · next short =>
      have whole := columns_split chars (min ((truncPosition.or firstItem).getD 0) chars.length)
      obtain ⟨lost, edge, found, reached⟩ := @droppedCells_spec width
        (chars.drop (min ((truncPosition.or firstItem).getD 0) chars.length))
        (columns (chars.take (min ((truncPosition.or firstItem).getD 0) chars.length)))
        (Nat.lt_of_not_le short) (by omega)
        fun c member => narrow c (List.mem_of_mem_drop member)
      refine .before _ (lost ++ [edge]) _ _ ?_ (List.append_ne_nil_of_right_ne_nil _ (List.cons_ne_nil edge []))
        rfl ?_
      · rw [← found, ← List.drop_drop, List.append_assoc, List.take_append_drop, List.take_append_drop]
      · dsimp only
        rw [List.getLast?_concat, ← List.drop_drop]
        simp only [columns_append, columns_cons, columns_nil, Option.some.injEq, exists_eq_left']
        omega

/-! ### Clicks -/

/-- The click regions of cells from a column on: the runs of cells of one region, as long as they go. -/
inductive ClickRuns (regions : List ClickAction) : Nat → List Cell → List ClickRegion → Prop where
  | done (col : Nat) : ClickRuns regions col [] []
  | bare {col : Nat} {c : Cell} {cells : List Cell} {out : List ClickRegion} (outside : c.click = none)
      (rest : ClickRuns regions (col + c.width) cells out) : ClickRuns regions col (c :: cells) out
  | run {col idx : Nat} {run cells : List Cell} {out : List ClickRegion} {action : ClickAction}
      (some_cell : run ≠ []) (inside : ∀ c ∈ run, c.click = some idx)
      (as_long : ∀ c, cells.head? = some c → c.click ≠ some idx) (known : regions[idx]? = some action)
      (rest : ClickRuns regions (col + columns run) cells out) :
      ClickRuns regions col (run ++ cells) (⟨col, col + columns run, action⟩ :: out)

/-- Cells whose regions are known. -/
def Known (regions : List ClickAction) (cells : List Cell) : Prop :=
  ∀ c ∈ cells, ∀ idx, c.click = some idx → idx < regions.length

theorem closeRegion_known {regions : List ClickAction} (known : idx < regions.length)
    (out : List ClickRegion) (start stop : Nat) : ∃ action, regions[idx]? = some action ∧
      closeRegion regions out idx start stop = out ++ [⟨start, stop, action⟩] := by
  refine ⟨_, List.getElem?_eq_getElem known, ?_⟩
  simp only [closeRegion, List.getElem?_eq_getElem known]

/-- **What the loop closes are the runs.** -/
theorem collectFrom_runs {regions : List ClickAction} (known : Known regions cells)
    (out : List ClickRegion) (col : Nat) :
    (∃ tail, collectFrom regions out col none cells = out ++ tail ∧ ClickRuns regions col cells tail) ∧
      ∀ idx start run, idx < regions.length → run ≠ [] → (∀ c ∈ run, c.click = some idx) →
        col = start + columns run →
        ∃ tail, collectFrom regions out col (some (idx, start)) cells = out ++ tail ∧
          ClickRuns regions start (run ++ cells) tail := by
  induction cells generalizing out col with
  | nil =>
      refine ⟨⟨[], (List.append_nil out).symm, .done col⟩, ?_⟩
      intro idx start run here some_cell inside stop
      obtain ⟨action, found, closed⟩ := closeRegion_known here out start col
      refine ⟨[⟨start, col, action⟩], closed, ?_⟩
      rw [stop]
      exact .run some_cell inside (by rintro c ⟨⟩) found (.done _)
  | cons c cells ih =>
      have rest : Known regions cells := fun c' member => known c' (List.mem_cons_of_mem c member)
      cases click : c.click with
      | none =>
          constructor
          · obtain ⟨tail, collected, runs⟩ := (ih rest out (col + c.width)).1
            refine ⟨tail, ?_, .bare click runs⟩
            unfold collectFrom
            simp only [click]
            exact collected
          · intro idx start run here some_cell inside stop
            obtain ⟨action, found, closed⟩ := closeRegion_known here out start col
            obtain ⟨tail, collected, runs⟩ := (ih rest (out ++ [⟨start, col, action⟩]) (col + c.width)).1
            refine ⟨⟨start, col, action⟩ :: tail, ?_, ?_⟩
            · unfold collectFrom
              simp only [click]
              simp only [closed, collected, List.append_assoc, List.singleton_append]
            · rw [stop]
              refine .run some_cell inside ?_ found (.bare click (stop ▸ runs))
              intro c' first
              cases first
              rw [click]
              rintro ⟨⟩
      | some here =>
          have here_known := known c (List.mem_cons_self ..) here click
          have alone : ∀ c' ∈ [c], c'.click = some here := by
            intro c' member
            rw [List.mem_singleton.1 member, click]
          have anew (out : List ClickRegion) :
              ∃ tail, collectFrom regions out (col + c.width) (some (here, col)) cells = out ++ tail ∧
                ClickRuns regions col (c :: cells) tail :=
            (ih rest out (col + c.width)).2 here col [c] here_known (List.cons_ne_nil c []) alone
              (by rw [columns_cons, columns_nil, Nat.add_zero])
          constructor
          · obtain ⟨tail, collected, runs⟩ := anew out
            refine ⟨tail, ?_, runs⟩
            unfold collectFrom
            simp only [click]
            exact collected
          · intro idx start run open_known some_cell inside stop
            by_cases same : here = idx
            · have longer : ∀ c' ∈ run ++ [c], c'.click = some idx := by
                intro c' member
                rcases List.mem_append.1 member with before | last
                · exact inside c' before
                · rw [alone c' last, same]
              obtain ⟨tail, collected, runs⟩ := (ih rest out (col + c.width)).2 idx start (run ++ [c])
                open_known (List.append_ne_nil_of_left_ne_nil some_cell _) longer
                (by rw [columns_append, columns_cons, columns_nil, Nat.add_zero, ← Nat.add_assoc, stop])
              refine ⟨tail, ?_, ?_⟩
              · unfold collectFrom
                simp only [click]
                simp only [same, if_true]
                exact collected
              · rwa [List.append_assoc, List.singleton_append] at runs
            · obtain ⟨action, found, closed⟩ := closeRegion_known open_known out start col
              obtain ⟨tail, collected, runs⟩ := anew (out ++ [⟨start, col, action⟩])
              refine ⟨⟨start, col, action⟩ :: tail, ?_, ?_⟩
              · unfold collectFrom
                simp only [click]
                simp only [same, if_false, closed, collected, List.append_assoc, List.singleton_append]
              · rw [stop]
                refine .run some_cell inside ?_ found (stop ▸ runs)
                intro c' first
                cases first
                rw [click, ne_eq, Option.some.injEq]
                exact same

theorem ClickRuns.after {regions : List ClickAction} {col : Nat} {out : List ClickRegion}
    (runs : ClickRuns regions col cells out) :
    ∀ region ∈ out, col ≤ region.startCol ∧ region.startCol ≤ region.endCol ∧
      region.endCol ≤ col + columns cells := by
  induction runs with
  | done => rintro region ⟨⟩
  | @bare col c cells out outside rest ih =>
      intro region member
      obtain ⟨after, forward, within⟩ := ih region member
      rw [columns_cons]
      omega
  | @run col idx run cells out action some_cell inside as_long known rest ih =>
      intro region member
      rw [columns_append]
      rcases List.mem_cons.1 member with rfl | member
      · simp only
        omega
      · obtain ⟨after, forward, within⟩ := ih region member
        omega

/-- **Click regions are in order and apart.** -/
theorem ClickRuns.apart {regions : List ClickAction} {col : Nat} {out : List ClickRegion}
    (runs : ClickRuns regions col cells out) :
    out.Pairwise fun region region' => region.endCol ≤ region'.startCol := by
  induction runs with
  | done => exact List.Pairwise.nil
  | bare outside rest ih => exact ih
  | run some_cell inside as_long known rest ih =>
      exact List.Pairwise.cons (fun region member => (rest.after region member).1) ih

/-! ### Flattening -/

/-- What holds of a line being flattened. -/
structure Flattening.Sound (w : CharWidth) (f : Flattening) : Prop where
  marked : Marked 0 f.flat.chars.length f.flat.alignPositions
  known : Known f.flat.regions f.flat.chars
  open_known : ∀ idx, f.click = some idx → idx < f.flat.regions.length
  widths : ∀ c ∈ f.flat.chars, c.width = w.width c.ch

variable {w : CharWidth}

theorem Flattening.Sound.new : Flattening.new.Sound w where
  marked := ⟨List.Pairwise.nil, by rintro marker ⟨⟩⟩
  known := by rintro c ⟨⟩
  open_known := by rintro idx ⟨⟩
  widths := by rintro c ⟨⟩

/-- **A piece keeps a flattening sound.** -/
theorem Flattening.Sound.add {f : Flattening} (sound : f.Sound w) (piece : Piece) :
    (f.add w piece).Sound w := by
  cases piece with
  | text text group =>
      refine ⟨⟨sound.marked.1, fun marker member => ?_⟩, fun c member idx here => ?_, sound.open_known,
        fun c member => ?_⟩
      · obtain ⟨after, within⟩ := sound.marked.2 marker member
        refine ⟨after, Nat.le_trans within ?_⟩
        simp only [Flattening.add, List.length_append]
        exact Nat.le_add_right _ _
      · rcases List.mem_append.1 member with before | added
        · exact sound.known c before idx here
        · obtain ⟨ch, -, rfl⟩ := List.mem_map.1 added
          exact sound.open_known idx here
      · rcases List.mem_append.1 member with before | added
        · exact sound.widths c before
        · obtain ⟨ch, -, rfl⟩ := List.mem_map.1 added
          rfl
  | align =>
      refine ⟨⟨?_, fun marker member => ?_⟩, sound.known, sound.open_known, sound.widths⟩
      · refine List.pairwise_append.2 ⟨sound.marked.1, List.pairwise_singleton _ _, ?_⟩
        intro marker member here last
        rw [List.mem_singleton.1 last]
        exact (sound.marked.2 marker member).2
      · rcases List.mem_append.1 member with before | last
        · exact sound.marked.2 marker before
        · rw [List.mem_singleton.1 last]
          exact ⟨Nat.zero_le _, Nat.le_refl _⟩
  | truncate => exact ⟨sound.marked, sound.known, sound.open_known, sound.widths⟩
  | clickStart action =>
      refine ⟨sound.marked, fun c member idx here => ?_, fun idx here => ?_, sound.widths⟩
      · simp only [Flattening.add, List.length_append]
        exact Nat.lt_of_lt_of_le (sound.known c member idx here) (Nat.le_add_right _ _)
      · simp only [Flattening.add, Option.some.injEq] at here
        simp only [Flattening.add, List.length_append, List.length_singleton, ← here]
        exact Nat.lt_succ_self _
  | clickEnd =>
      refine ⟨sound.marked, sound.known, fun idx here => ?_, sound.widths⟩
      cases here

theorem flatten_sound (pieces : List Piece) :
    (pieces.foldl (Flattening.add w) .new).Sound w := by
  have sound : ∀ (pieces : List Piece) (f : Flattening), f.Sound w → (pieces.foldl (Flattening.add w) f).Sound w := by
    intro pieces
    induction pieces with
    | nil => exact fun f sound => sound
    | cons piece pieces ih => exact fun f sound => ih _ (sound.add piece)
  exact sound pieces .new Flattening.Sound.new

/-- The cells hold the pieces' text. -/
theorem flatten_chars (pieces : List Piece) :
    (flatten w pieces).chars.map (·.ch) = pieces.flatMap Piece.chars := by
  have text : ∀ (pieces : List Piece) (f : Flattening),
      (pieces.foldl (Flattening.add w) f).flat.chars.map (·.ch) =
        f.flat.chars.map (·.ch) ++ pieces.flatMap Piece.chars := by
    intro pieces
    induction pieces with
    | nil => exact fun f => (List.append_nil _).symm
    | cons piece pieces ih =>
        intro f
        have added : (f.add w piece).flat.chars.map (·.ch) = f.flat.chars.map (·.ch) ++ piece.chars := by
          cases piece with
          | text text group =>
              simp only [Flattening.add, List.map_append, List.map_map, Piece.chars]
              rw [show ((fun c : Cell => c.ch) ∘ fun ch => Cell.mk ch (w.width ch) group f.click) = id from rfl,
                List.map_id]
          | align => exact (List.append_nil _).symm
          | truncate => exact (List.append_nil _).symm
          | clickStart action => exact (List.append_nil _).symm
          | clickEnd => exact (List.append_nil _).symm
        rw [List.foldl_cons, ih, added, List.flatMap_cons, List.append_assoc]
  exact text pieces .new

/-- The align markers among the pieces, each by the characters before it. -/
def marksFrom (here : Nat) : List Piece → List Nat
  | [] => []
  | .align :: pieces => here :: marksFrom here pieces
  | piece :: pieces => marksFrom (here + piece.chars.length) pieces

/-- The click region of each character of the pieces, by its place among the regions. -/
def clicksFrom (opened : Nat) (click : Option Nat) : List Piece → List (Option Nat)
  | [] => []
  | .text text _ :: pieces => text.map (fun _ => click) ++ clicksFrom opened click pieces
  | .clickStart _ :: pieces => clicksFrom (opened + 1) (some opened) pieces
  | .clickEnd :: pieces => clicksFrom opened none pieces
  | _ :: pieces => clicksFrom opened click pieces

/-- What a click does from a piece on. -/
def Piece.action : Piece → Option ClickAction
  | .clickStart action => some action
  | _ => none

/-- **The markers and the click regions are those of the pieces.** -/
theorem flatten_places (pieces : List Piece) :
    (flatten w pieces).alignPositions = marksFrom 0 pieces ∧
      (flatten w pieces).chars.map (·.click) = clicksFrom 0 none pieces ∧
      (flatten w pieces).regions = pieces.filterMap Piece.action := by
  have from_here : ∀ (pieces : List Piece) (f : Flattening),
      (pieces.foldl (Flattening.add w) f).flat.alignPositions =
          f.flat.alignPositions ++ marksFrom f.flat.chars.length pieces ∧
        (pieces.foldl (Flattening.add w) f).flat.chars.map (·.click) =
          f.flat.chars.map (·.click) ++ clicksFrom f.flat.regions.length f.click pieces ∧
        (pieces.foldl (Flattening.add w) f).flat.regions = f.flat.regions ++ pieces.filterMap Piece.action := by
    intro pieces
    induction pieces with
    | nil =>
        intro f
        exact ⟨(List.append_nil _).symm, (List.append_nil _).symm, (List.append_nil _).symm⟩
    | cons piece pieces ih =>
        intro f
        obtain ⟨marks, clicks, regions⟩ := ih (f.add w piece)
        rw [List.foldl_cons, marks, clicks, regions]
        cases piece with
        | text text group =>
            refine ⟨?_, ?_, rfl⟩
            · simp [Flattening.add, marksFrom, Piece.chars]
            · simp [Flattening.add, clicksFrom, Function.comp_def]
        | align => exact ⟨by simp [Flattening.add, marksFrom], rfl, rfl⟩
        | truncate => exact ⟨rfl, rfl, rfl⟩
        | clickStart action =>
            refine ⟨rfl, ?_, by simp [Flattening.add, Piece.action]⟩
            simp [Flattening.add, clicksFrom]
        | clickEnd => exact ⟨rfl, rfl, rfl⟩
  exact from_here pieces .new

/-! ### The layout -/

/-- A cell that the layout adds. -/
def Mark (c : Cell) : Prop := c.width = 1 ∧ c.click = none ∧ (c.ch = ' ' ∨ c.ch = '<' ∨ c.ch = '>')

theorem Filled.cells_of (filled : Filled idx cells markers out) :
    ∀ c ∈ out, c ∈ cells ∨ Mark c := by
  induction filled with
  | done => rintro c ⟨⟩
  | gap n group rest ih =>
      intro c member
      rcases List.mem_append.1 member with fill | member
      · rw [List.eq_of_mem_replicate fill]
        exact Or.inr ⟨rfl, rfl, Or.inl rfl⟩
      · exact ih c member
  | cell c rest ih =>
      intro c' member
      rcases List.mem_cons.1 member with rfl | member
      · exact Or.inl (List.mem_cons_self ..)
      · exact (ih c' member).imp_left (List.mem_cons_of_mem c)

theorem Cut.cells_of {width : Nat} {chars : List Cell} (cut : Cut width chars cells) :
    ∀ c ∈ cells, c ∈ chars ∨ Mark c := by
  intro c member
  cases cut with
  | before front lost back group whole some_lost kept reached =>
      rw [kept, List.append_assoc] at member
      rw [whole, List.append_assoc]
      rcases List.mem_append.1 member with member | member
      · exact Or.inl (List.mem_append_left _ member)
      · rcases List.mem_cons.1 member with rfl | member
        · exact Or.inr ⟨rfl, rfl, Or.inr (Or.inl rfl)⟩
        · exact Or.inl (List.mem_append_right _ (List.mem_append_right _ member))
  | behind front lost group whole some_lost kept reached =>
      rw [kept] at member
      rw [whole]
      rcases List.mem_append.1 member with member | member
      · exact Or.inl (List.mem_append_left _ member)
      · rw [List.mem_singleton.1 member]
        exact Or.inr ⟨rfl, rfl, Or.inr (Or.inr rfl)⟩

theorem Cut.columns_eq {width : Nat} {chars : List Cell} (cut : Cut width chars cells) :
    columns cells = width ∨ columns cells + 1 = width := by
  cases cut with
  | before front lost back group whole some_lost kept reached => exact reached.imp_right And.left
  | behind front lost group whole some_lost kept reached => exact reached.imp_right And.left

/-- **A text that fits is filled, one that does not is cut.** -/
theorem resolveChars_spec {flat : Flat} {width : Nat} (positive : 0 < width)
    (marked : Marked 0 flat.chars.length flat.alignPositions) (narrow : ∀ c ∈ flat.chars, c.width ≤ 2) :
    (columns flat.chars ≤ width →
      Filled 0 flat.chars flat.alignPositions (resolveChars flat width) ∧
        columns (resolveChars flat width) =
          if flat.alignPositions = [] then columns flat.chars else width) ∧
      (width < columns flat.chars → Cut width flat.chars (resolveChars flat width)) := by
  have marked : Marked 0 (0 + flat.chars.length) flat.alignPositions := by
    rwa [Nat.zero_add]
  rw [resolveChars, if_neg (Nat.ne_of_gt positive)]
  refine ⟨fun fits => ?_, fun wide => ?_⟩
  · rw [if_neg (Nat.not_lt.2 fits)]
    split
    · next slack =>
        obtain ⟨total, filled⟩ := @fillFrom_spec
          ((width - columns flat.chars) / flat.alignPositions.length)
          ((width - columns flat.chars) -
            (width - columns flat.chars) / flat.alignPositions.length * (flat.alignPositions.length - 1))
          _ _ none _ marked
        refine ⟨filled, ?_⟩
        obtain ⟨marker, markers, some_marker⟩ := List.exists_cons_of_ne_nil slack.2
        have shared : (width - columns flat.chars) / (markers.length + 1) * markers.length ≤
            width - columns flat.chars :=
          Nat.le_trans (Nat.mul_le_mul_left _ (Nat.le_succ _))
            (Nat.div_mul_le_self (width - columns flat.chars) (markers.length + 1))
        rw [if_neg slack.2, distributeFill, total, some_marker, List.length_cons, gaps_eq, Nat.add_sub_cancel]
        omega
    · next no_slack =>
        refine ⟨Filled.plain marked, ?_⟩
        split
        · rfl
        · next some_marker =>
            exact Nat.le_antisymm fits (Nat.le_of_not_lt fun less => no_slack ⟨less, some_marker⟩)
  · rw [if_pos wide]
    exact truncate_cut flat.truncPosition flat.firstItem positive wide narrow

theorem resolveChars_cells {flat : Flat} {width : Nat} (positive : 0 < width)
    (marked : Marked 0 flat.chars.length flat.alignPositions) (narrow : ∀ c ∈ flat.chars, c.width ≤ 2) :
    ∀ c ∈ resolveChars flat width, c ∈ flat.chars ∨ Mark c := by
  obtain ⟨fits, wide⟩ := resolveChars_spec positive marked narrow
  rcases Nat.lt_or_ge width (columns flat.chars) with more | less
  · exact (wide more).cells_of
  · exact (fits less).1.cells_of

/-- The segments paint the cells. -/
theorem coalesce_text (cells : List Cell) : (coalesce cells).flatMap (·.text) = cells.map (·.ch) := by
  have joined : ∀ (segments : List StatusSegment) (c : Cell),
      (joinCell segments c).flatMap (·.text) = segments.flatMap (·.text) ++ [c.ch] := by
    intro segments c
    rw [joinCell]
    split
    · next last found =>
        split
        · conv_rhs => rw [← List.dropLast_append_getLast? last found]
          simp only [List.flatMap_append, List.flatMap_singleton, List.append_assoc]
        · rw [List.flatMap_append, List.flatMap_singleton]
    · rw [List.flatMap_append, List.flatMap_singleton]
  have all : ∀ (cells : List Cell) (segments : List StatusSegment),
      (cells.foldl joinCell segments).flatMap (·.text) = segments.flatMap (·.text) ++ cells.map (·.ch) := by
    intro cells
    induction cells with
    | nil => exact fun segments => (List.append_nil _).symm
    | cons c cells ih =>
        intro segments
        rw [List.foldl_cons, ih, joined, List.map_cons, List.append_assoc, List.singleton_append]
  exact all cells []

theorem painted_coalesce (widths : ∀ c ∈ cells, c.width = w.width c.ch) :
    painted w (coalesce cells) = columns cells := by
  rw [painted, coalesce_text, columns, List.map_map]
  congr 1
  exact List.map_congr_left fun c member => (widths c member).symm

/-- **The layout of a status line, and its clicks.** -/
theorem layout_with_clicks_fits (w : CharWidth) (pieces : List Piece) {width : Nat} (positive : 0 < width) :
    (layoutWithClicks w pieces width).1.flatMap (·.text) =
        (resolveChars (flatten w pieces) width).map (·.ch) ∧
      painted w (layoutWithClicks w pieces width).1 ≤ width ∧
      ((flatten w pieces).chars.map (·.ch) = pieces.flatMap Piece.chars ∧
        (flatten w pieces).alignPositions = marksFrom 0 pieces ∧
        (flatten w pieces).chars.map (·.click) = clicksFrom 0 none pieces ∧
        (flatten w pieces).regions = pieces.filterMap Piece.action) ∧
      (columns (flatten w pieces).chars ≤ width →
        Filled 0 (flatten w pieces).chars (flatten w pieces).alignPositions
            (resolveChars (flatten w pieces) width) ∧
          ((flatten w pieces).alignPositions ≠ [] → painted w (layoutWithClicks w pieces width).1 = width)) ∧
      (width < columns (flatten w pieces).chars →
        Cut width (flatten w pieces).chars (resolveChars (flatten w pieces) width) ∧
          columns (resolveChars (flatten w pieces) width) = painted w (layoutWithClicks w pieces width).1) ∧
      ClickRuns (flatten w pieces).regions 0 (resolveChars (flatten w pieces) width)
        (layoutWithClicks w pieces width).2 ∧
      ((layoutWithClicks w pieces width).2.Pairwise fun region region' =>
        region.endCol ≤ region'.startCol) ∧
      ∀ {σ : Type} (parse : List Char → Except (List Char) (List Item)) (ctx : StatuslineCtx)
        (eval : σ → ExprKind → List Char → σ × List Char) (items : List Item) (host : σ),
        (expand parse ctx (counted eval) items (host, 0)).host.2 ≤ maxExprEvals := by
  have sound : (pieces.foldl (Flattening.add w) .new).Sound w := flatten_sound pieces
  have marked : Marked 0 (flatten w pieces).chars.length (flatten w pieces).alignPositions := sound.marked
  have narrow : ∀ c ∈ (flatten w pieces).chars, c.width ≤ 2 := by
    intro c member
    rw [sound.widths c member]
    exact w.le_two c.ch
  have cells := resolveChars_cells positive marked narrow
  have widths : ∀ c ∈ resolveChars (flatten w pieces) width, c.width = w.width c.ch := by
    intro c member
    rcases cells c member with kept | ⟨one, -, space | before | behind⟩
    · exact sound.widths c kept
    · rw [one, space, w.fill]
    · rw [one, before, w.before]
    · rw [one, behind, w.behind]
  have known : Known (flatten w pieces).regions (resolveChars (flatten w pieces) width) := by
    intro c member idx here
    rcases cells c member with kept | ⟨-, outside, -⟩
    · exact sound.known c kept idx here
    · rw [outside] at here
      cases here
  obtain ⟨fits, wide⟩ := resolveChars_spec positive marked narrow
  have same : painted w (layoutWithClicks w pieces width).1 = columns (resolveChars (flatten w pieces) width) :=
    painted_coalesce widths
  have runs : ClickRuns (flatten w pieces).regions 0 (resolveChars (flatten w pieces) width)
      (layoutWithClicks w pieces width).2 := by
    obtain ⟨tail, collected, runs⟩ := (collectFrom_runs known [] 0).1
    rw [List.nil_append] at collected
    rw [layoutWithClicks, collectClicks, collected]
    exact runs
  refine ⟨coalesce_text _, ?_, ⟨flatten_chars pieces, flatten_places pieces⟩, fun less => ⟨(fits less).1, fun some_marker => ?_⟩,
    fun more => ⟨wide more, same.symm⟩, runs, runs.apart, fun parse ctx eval items host => expand_calls items host⟩
  · rw [same]
    rcases Nat.lt_or_ge width (columns (flatten w pieces).chars) with more | less
    · rcases (wide more).columns_eq with reached | reached
      · exact Nat.le_of_eq reached
      · exact Nat.le_of_succ_le (Nat.le_of_eq reached)
    · rw [(fits less).2]
      split
      · exact less
      · exact Nat.le_refl width
  · rw [same, (fits less).2, if_neg some_marker]

/-- Combining marks take no column, ideographs two. -/
def plainWidth : CharWidth where
  width c := if 0x300 ≤ c.val ∧ c.val < 0x370 then 0 else if 0x4E00 ≤ c.val ∧ c.val < 0xA000 then 2 else 1
  le_two c := by
    split
    · exact Nat.zero_le 2
    · split
      · exact Nat.le_refl 2
      · exact Nat.le_succ 1
  fill := rfl
  before := rfl
  behind := rfl

theorem layout_with_clicks_fits_tab :
    painted plainWidth (layoutWithClicks plainWidth [.clickStart (.tab 1), .text ['a', 'b'] none, .clickEnd] 1).1
      ≤ 1 :=
  (layout_with_clicks_fits plainWidth [.clickStart (.tab 1), .text ['a', 'b'] none, .clickEnd] Nat.one_pos).2.1

/-- A two-wide cell at the cut, a region of no column, and a region that fill breaks. -/
theorem layout_with_clicks_gaps :
    painted plainWidth (layoutWithClicks plainWidth [.text ['a', '漢', 'b', 'c'] none] 4).1 = 3 ∧
      (layoutWithClicks plainWidth [.clickStart (.tab 1), .text ['́'] none, .clickEnd] 4).2 =
        [⟨0, 0, .tab 1⟩] ∧
      (layoutWithClicks plainWidth
        [.clickStart (.tab 1), .text ['x'] none, .align, .text ['y'] none, .clickEnd] 4).2 =
        [⟨0, 1, .tab 1⟩, ⟨3, 4, .tab 1⟩] := by
  decide

end Bemtvi.Core.Statusline
