/-
Module: Bemtvi.Core.FoldInputsLaws
Purpose: The span a batch of edits folds into is a sound line splice, as long as every place of an
  edit is right and no edit joins a `\n` to the `\r` before it; so a cache of fold inputs that a
  sync keeps is the one it would build.  A row of a `'foldexpr'` keeps its value or has none.
Trusted boundary: none
Main exports: RowExact, edit_spliced, foldEditRows_spliced, Synced.Sound, Synced.step_sound,
  fold_inputs_sound
-/
import Bemtvi.Core.FoldInputs

namespace Bemtvi.Core

open Utf8
open Journal (charBefore charAt Replay Exact)
open Run (run Along run_along)

/-! ### One edit -/

/-- The edit joins a `\n` to the `\r` before its start. -/
def BufferEdit.JoinsBreak (edit : BufferEdit) (text : Text) : Prop :=
  charBefore text edit.startByte = some '\r' ∧ charAt text edit.startByte ≠ some '\n' ∧
    edit.text.head?.or (charAt text edit.oldEndByte) = some '\n'

/-- Every place of the edit is right, and it joins no break. -/
structure RowExact (edit : BufferEdit) (text text' : Text) : Prop extends
    Exact edit text text' where
  apart : ¬ edit.JoinsBreak text

variable {edit : BufferEdit} {inputs : FoldInputs}

/-- **An edit changes the rows between its places only.** -/
theorem edit_spliced {text text' : Text} (recorded : RowExact edit text text') :
    Spliced (lines text) (lines text') edit.startPoint.1 edit.oldEndPoint.1
      edit.newEndPoint.1 := by
  obtain ⟨front, old, back, whole, start, stop, whole'⟩ := splice_eq_some.1 recorded.spliced
  have start_row : edit.startPoint.1 = rows front (old ++ back).head? := by
    rw [recorded.startPoint, whole, ← start, List.append_assoc, point_append, walk_row,
      Nat.zero_add]
  have old_row : edit.oldEndPoint.1 = rows (front ++ old) back.head? := by
    rw [recorded.oldEndPoint, whole, ← stop, ← size_append, point_append, walk_row, Nat.zero_add]
  have new_row : edit.newEndPoint.1 = rows (front ++ edit.text) back.head? := by
    rw [recorded.newEndPoint, whole', recorded.newEnd, ← start, ← size_append, point_append,
      walk_row, Nat.zero_add]
  have apart : front.getLast? = some '\r' → (edit.text ++ back).head? = some '\n' →
      (old ++ back).head? = some '\n' := by
    intro carriage joins
    by_contra open_
    have at_start : cut text edit.startByte = some (front, old ++ back) := by
      rw [whole, ← start, List.append_assoc, cut_append]
    have at_stop : cut text edit.oldEndByte = some (front ++ old, back) := by
      rw [whole, ← stop, ← size_append, cut_append]
    apply recorded.apart
    simp only [BufferEdit.JoinsBreak, charBefore, charAt, at_start, at_stop, Option.bind_some]
    exact ⟨carriage, open_, by rw [← head?_append_or]; exact joins⟩
  rw [start_row, old_row, new_row, whole, whole']
  constructor
  · rw [List.append_assoc, List.append_assoc]
    exact (lines_take front apart).symm
  · rw [lines_drop, lines_drop]
  · cases old with
    | nil => simp
    | cons c old => exact rows_le_append front (List.cons_ne_nil c old) _ _
  · cases new : edit.text with
    | nil =>
        rw [new] at apart
        rw [List.append_nil]
        exact rows_le front apart
    | cons c rest => exact rows_le_append front (List.cons_ne_nil c rest) _ _
  · exact rows_lt_lines _ _
  · exact rows_lt_lines _ _

/-- Only a text with a `\r` has a break to join. -/
theorem BufferEdit.JoinsBreak.mem {text : Text} (joins : edit.JoinsBreak text) : '\r' ∈ text := by
  obtain ⟨⟨front, back⟩, found, last⟩ := Option.bind_eq_some_iff.1 joins.1
  obtain ⟨rfl, -⟩ := cut_eq_some.1 found
  exact List.mem_append_left back (List.mem_of_getLast? last)

/-! ### A batch -/

theorem foldEditRows_concat (first : BufferEdit) (edits : List BufferEdit) (edit : BufferEdit) :
    foldEditRows (first :: edits ++ [edit]) =
      (foldEditRows (first :: edits)).bind (foldEditRow · edit) := by
  rw [List.cons_append, foldEditRows, foldEditRows, List.foldlM_append]
  simp only [List.foldlM_cons, List.foldlM_nil, bind_pure]
  rfl

theorem foldEditRow_eq_some {start oldEnd newEnd : Nat} {span : Nat × Nat × Nat}
    (folded : foldEditRow (start, oldEnd, newEnd) edit = some span)
    (ordered : edit.startPoint.1 ≤ edit.oldEndPoint.1) : newEnd ≤ edit.startPoint.1 ∧
      span = (start, oldEnd + (edit.oldEndPoint.1 - newEnd), edit.newEndPoint.1) := by
  simp only [foldEditRow] at folded
  split at folded
  · cases folded
  · next forward =>
      split at folded
      · cases folded
      · cases folded
        refine ⟨Nat.not_lt.1 forward, ?_⟩
        simp only [Prod.mk.injEq, true_and, and_true]
        omega

/-- **The span of a batch.**  By induction on the batch, each edit behind the span of those before
it. -/
theorem foldEditRows_spliced {edits : List BufferEdit} {text text' : Text}
    (replayed : Replay RowExact edits text text') {start oldEnd newEnd : Nat}
    (folded : foldEditRows edits = some (start, oldEnd, newEnd)) :
    Spliced (lines text) (lines text') start oldEnd newEnd := by
  induction replayed generalizing start oldEnd newEnd with
  | nil text => cases folded
  | @concat edits edit text middle text' before last ih =>
      have spliced := edit_spliced last
      cases edits with
      | nil =>
          cases folded
          rw [← before.of_nil rfl]
          exact spliced
      | cons first edits =>
          rw [foldEditRows_concat] at folded
          obtain ⟨⟨start', oldEnd', newEnd'⟩, so_far, folded⟩ := Option.bind_eq_some_iff.1 folded
          obtain ⟨forward, same⟩ := foldEditRow_eq_some folded spliced.start_old
          cases same
          exact (ih so_far).trans spliced forward

/-! ### The cache -/

/-- The lines a cache has a row for. -/
def editable (text : Text) : List Text := (lines text).dropLast.map stripEol

/-- The cache has what its parameters derive from the text. -/
def FoldInputs.Describes (inputs : FoldInputs) (text : Text) : Prop :=
  match inputs.params, inputs.lines with
  | .indent tabstop, .indent cols => cols = (editable text).map (indentColsOf · tabstop)
  | .marker start stop, .marker toks => toks = (editable text).map (markerToksOf · start stop)
  | .expr _, .expr values => values.length = (editable text).length
  | _, _ => False

section Cache

variable {E : Type} (buffer : Buffer E)

theorem iterLines_eq : buffer.iterLines = editable buffer.text := by
  rw [Buffer.iterLines, Buffer.lineCount, editable, List.dropLast_eq_take]

theorem length_editable : (editable buffer.text).length = buffer.lineCount := by
  rw [editable, List.length_map, List.length_dropLast, Buffer.lineCount]

/-- Fresh rows above the last are the lines of the text. -/
theorem map_lineCow (start count : Nat) (within : start + count ≤ buffer.lineCount) :
    (List.range' start count).map buffer.lineCow =
      ((editable buffer.text).drop start).take count := by
  have enough := length_editable buffer
  apply List.ext_getElem?
  intro row
  by_cases inside : row < count
  · have below : start + row < buffer.lineCount := by omega
    have some_line : start + row < (lines buffer.text).length := by
      rw [Buffer.lineCount] at below
      omega
    rw [List.getElem?_take_of_lt inside, List.getElem?_drop, List.getElem?_map,
      List.getElem?_range' inside, editable, List.getElem?_map, List.getElem?_dropLast]
    rw [Buffer.lineCount] at below
    simp [Buffer.lineCow, Buffer.lineCount, below, some_line]
  · rw [List.getElem?_eq_none, List.getElem?_eq_none]
    · rw [List.length_take]
      omega
    · rw [List.length_map, List.length_range']
      omega

theorem build_describes (tick : Nat) (params : FoldInputParams) :
    (FoldInputs.mk tick params (FoldLines.build buffer params)).Describes buffer.text := by
  cases params with
  | indent tabstop => exact congrArg _ (iterLines_eq buffer)
  | marker start stop => exact congrArg _ (iterLines_eq buffer)
  | expr expr => exact (List.length_replicate ..).trans (length_editable buffer).symm

variable {buffer}

variable {newEnd oldEnd start : Nat} {text : Text} {α : Type} {fresh rows : List α}

/-- A span the length check passes ends above the last row. -/
theorem new_row_inside (span : Spliced (lines text) (lines buffer.text) start oldEnd newEnd)
    (cached : rows.length = (editable text).length)
    (fresh_length : fresh.length = newEnd + 1 - start) (start_inside : start ≤ rows.length)
    (checked : (spliceRows rows start (min (oldEnd + 1) rows.length) fresh).length =
      buffer.lineCount) : newEnd + 1 ≤ buffer.lineCount := by
  have lengths := span.lengths
  have start_new := span.start_new
  have old_row := span.old_row
  rw [editable, List.length_map, List.length_dropLast] at cached
  simp only [spliceRows, List.length_append, List.length_take, List.length_drop] at checked
  rw [Buffer.lineCount] at checked ⊢
  omega

/-- Clamping the end of the old rows takes out the same ones. -/
theorem spliceRows_min (rows fresh : List α) (start stop : Nat) :
    spliceRows rows start (min stop rows.length) fresh = spliceRows rows start stop fresh := by
  rw [spliceRows, spliceRows]
  by_cases inside : stop ≤ rows.length
  · rw [Nat.min_eq_left inside]
  · rw [Nat.min_eq_right (by omega), List.drop_length, List.drop_of_length_le (by omega)]

/-- **Spliced rows are the ones a pass over the text derives.** -/
theorem spliceRows_derived (span : Spliced (lines text) (lines buffer.text) start oldEnd newEnd)
    (derive : Text → α) (inside : newEnd + 1 ≤ buffer.lineCount) :
    spliceRows ((editable text).map derive) start (oldEnd + 1)
        ((List.range' start (newEnd + 1 - start)).map fun row => derive (buffer.lineCow row)) =
      (editable buffer.text).map derive := by
  have start_new := span.start_new
  have fresh := map_lineCow buffer start (newEnd + 1 - start) (by omega)
  have whole := congrArg (List.map (derive ∘ stripEol)) span.whole_dropLast
  have derived :
      (List.range' start (newEnd + 1 - start)).map (fun row => derive (buffer.lineCow row)) =
        (((editable buffer.text).drop start).take (newEnd + 1 - start)).map derive := by
    rw [← fresh, List.map_map]
    rfl
  rw [derived, spliceRows]
  simpa only [editable, List.map_append, List.map_take, List.map_drop, List.map_map] using whole

/-- The same of a cache that passed the length check. -/
theorem spliceRows_checked (span : Spliced (lines text) (lines buffer.text) start oldEnd newEnd)
    {derive : Text → α} (described : rows = (editable text).map derive)
    (start_inside : start ≤ rows.length)
    (checked : (spliceRows rows start (min (oldEnd + 1) rows.length)
      ((List.range' start (newEnd + 1 - start)).map fun row =>
        derive (buffer.lineCow row))).length = buffer.lineCount) :
    spliceRows rows start (min (oldEnd + 1) rows.length)
        ((List.range' start (newEnd + 1 - start)).map fun row => derive (buffer.lineCow row)) =
      (editable buffer.text).map derive := by
  have length : rows.length = (editable text).length := by rw [described, List.length_map]
  have inside := new_row_inside span length (by rw [List.length_map, List.length_range'])
    start_inside checked
  rw [spliceRows_min, described]
  exact spliceRows_derived span derive inside

/-! ### The rows of a `'foldexpr'` -/

/-- Every value stands in a row of the text it was cached for. -/
def Carried (values : List (Option Text)) (text : Text) (values' : List (Option Text))
    (text' : Text) : Prop :=
  ∀ (row : Nat) (value : Text), values'[row]? = some (some value) →
    ∃ row' : Nat, values[row']? = some (some value) ∧ (editable text)[row']? = (editable text')[row]?

theorem Carried.refl (values : List (Option Text)) (text : Text) :
    Carried values text values text :=
  fun row _ cached => ⟨row, cached, rfl⟩

theorem getElem?_editable (text : Text) (row : Nat) :
    (editable text)[row]? =
      if row < (lines text).length - 1 then ((lines text)[row]?).map stripEol else none := by
  rw [editable, List.getElem?_map, List.getElem?_dropLast]
  split <;> rfl

/-- Where the rows of a splice come from. -/
theorem getElem?_spliceRows {stop row : Nat} {x : α} (inside : start ≤ rows.length)
    (here : (spliceRows rows start stop fresh)[row]? = some x) :
    (row < start ∧ rows[row]? = some x) ∨ x ∈ fresh ∨
      (start + fresh.length ≤ row ∧ rows[stop + (row - (start + fresh.length))]? = some x) := by
  have front : (rows.take start).length = start := List.length_take_of_le inside
  rw [spliceRows, List.append_assoc] at here
  by_cases above : row < start
  · rw [List.getElem?_append_left (by omega), List.getElem?_take_of_lt above] at here
    exact Or.inl ⟨above, here⟩
  · rw [List.getElem?_append_right (by omega), front] at here
    by_cases within : row - start < fresh.length
    · rw [List.getElem?_append_left within] at here
      exact Or.inr (Or.inl (List.mem_of_getElem? here))
    · rw [List.getElem?_append_right (by omega), List.getElem?_drop, Nat.sub_sub] at here
      exact Or.inr (Or.inr ⟨by omega, here⟩)

theorem spliceRows_carried {text' : Text}
    (span : Spliced (lines text) (lines text') start oldEnd newEnd) {values : List (Option Text)}
    (start_inside : start ≤ values.length) (inside : newEnd + 1 ≤ (lines text').length - 1) :
    Carried values text
      (spliceRows values start (oldEnd + 1)
        ((List.range' start (newEnd + 1 - start)).map fun _ => none)) text' := by
  have lengths := span.lengths
  have start_new := span.start_new
  have start_old := span.start_old
  intro row value here
  obtain ⟨above, cached⟩ | fresh | ⟨below, cached⟩ := getElem?_spliceRows start_inside here
  · refine ⟨row, cached, ?_⟩
    have row_new : row < (lines text').length - 1 := by omega
    have row_old : row < (lines text).length - 1 := by omega
    rw [getElem?_editable, getElem?_editable, if_pos row_new, if_pos row_old,
      span.getElem?_before above]
  · simp at fresh
  · rw [List.length_map, List.length_range'] at below cached
    have same : oldEnd + 1 + (row - (start + (newEnd + 1 - start))) = row - newEnd + oldEnd := by
      omega
    rw [same] at cached
    refine ⟨row - newEnd + oldEnd, cached, ?_⟩
    have row_iff : row - newEnd + oldEnd < (lines text).length - 1 ↔
        row < (lines text').length - 1 := by omega
    rw [getElem?_editable, getElem?_editable, if_congr row_iff rfl rfl,
      span.getElem?_behind (by omega)]

/-! ### A sync -/

/-- What a sync makes of the cache of `text`: what the text now gives, and for a `'foldexpr'` no
value that was not cached for the same line. -/
def FoldInputs.Follows (fresh : FoldInputs) (text' : Text) (cached : Option FoldInputs)
    (text : Text) : Prop :=
  fresh.Describes text' ∧
    ∀ values', fresh.lines = .expr values' → (∀ value, some value ∉ values') ∨
      ∃ old values, cached = some old ∧ old.params = fresh.params ∧ old.lines = .expr values ∧
        Carried values text values' text'

theorem build_follows (buffer : Buffer E) (tick : Nat) (params : FoldInputParams)
    (cached : Option FoldInputs) (text : Text) :
    (FoldInputs.mk tick params (FoldLines.build buffer params)).Follows buffer.text cached text := by
  refine ⟨build_describes buffer tick params, ?_⟩
  intro values' same
  refine Or.inl ?_
  cases params with
  | indent tabstop => cases same
  | marker start stop => cases same
  | expr expr =>
      cases same
      intro value has_value
      cases List.eq_of_mem_replicate has_value

/-- **A spliced cache follows the text.**  One case for each kind of cache. -/
theorem keptLines_follows {batch : EditBatch} {cached : FoldInputs} {params : FoldInputParams}
    {kept : FoldLines} (tick : Nat) (described : cached.Describes text)
    (replayed : batch.resync = false → Replay RowExact batch.edits text buffer.text)
    (keeps : keptLines buffer batch cached params = some kept) :
    (FoldInputs.mk tick params kept).Follows buffer.text (some cached) text := by
  unfold keptLines at keeps
  split at keeps
  case isFalse => cases keeps
  case isTrue settled =>
    obtain ⟨same_params, no_resync⟩ := settled
    cases folded : foldEditRows batch.edits with
    | none => simp [folded] at keeps
    | some span =>
        obtain ⟨start, oldEnd, newEnd⟩ := span
        have spliced := foldEditRows_spliced (replayed no_resync) folded
        simp only [folded] at keeps
        split at keeps
        case isTrue => cases keeps
        case isFalse inside =>
          split at keeps
          case isFalse => cases keeps
          case isTrue checked =>
            cases keeps
            obtain ⟨cached_tick, cached_params, cached_lines⟩ := cached
            cases same_params
            rw [not_or, Nat.not_lt, Nat.not_lt] at inside
            cases cached_params with
            | indent tabstop =>
                cases cached_lines with
                | indent cols =>
                    refine ⟨?_, fun values' same => by cases same⟩
                    exact spliceRows_checked spliced described inside.1 checked
                | marker toks => exact described.elim
                | expr values => exact described.elim
            | marker open_ close =>
                cases cached_lines with
                | indent cols => exact described.elim
                | marker toks =>
                    refine ⟨?_, fun values' same => by cases same⟩
                    exact spliceRows_checked spliced described inside.1 checked
                | expr values => exact described.elim
            | expr expr =>
                cases cached_lines with
                | indent cols => exact described.elim
                | marker toks => exact described.elim
                | expr values =>
                    have within := new_row_inside spliced described
                      (by rw [List.length_map, List.length_range']) inside.1 checked
                    refine ⟨?_, ?_⟩
                    · exact checked.trans (length_editable buffer).symm
                    · intro values' same
                      cases same
                      refine Or.inr ⟨_, values, rfl, rfl, rfl, ?_⟩
                      rw [FoldLines.len, spliceRows_min]
                      exact spliceRows_carried spliced inside.1 within

theorem syncFoldInputs_some [ExtmarkStore E] (cached : FoldInputs) (params : FoldInputParams) :
    (syncFoldInputs buffer (some cached) params).2 =
      if cached.params = params ∧ buffer.foldEdits.resync = false ∧
          cached.tick = buffer.changedtick ∧ buffer.foldEdits.edits = [] then cached
      else FoldInputs.mk buffer.changedtick params
        ((keptLines buffer buffer.foldEdits cached params).getD (FoldLines.build buffer params)) :=
  apply_ite Prod.snd _ _ _

theorem syncFoldInputs_follows [ExtmarkStore E] {inputs : Option FoldInputs}
    (params : FoldInputParams)
    (described : ∀ cached, inputs = some cached → cached.Describes text)
    (replayed : buffer.foldEdits.resync = false →
      Replay RowExact buffer.foldEdits.edits text buffer.text) :
    (syncFoldInputs buffer inputs params).2.Follows buffer.text inputs text ∧
      (syncFoldInputs buffer inputs params).2.params = params := by
  cases inputs with
  | none => exact ⟨build_follows buffer _ params none text, rfl⟩
  | some cached =>
      rw [syncFoldInputs_some]
      by_cases settled : cached.params = params ∧ buffer.foldEdits.resync = false ∧
          cached.tick = buffer.changedtick ∧ buffer.foldEdits.edits = []
      · rw [if_pos settled]
        obtain ⟨same_params, no_resync, -, no_edits⟩ := settled
        have same_text := (replayed no_resync).of_nil no_edits
        refine ⟨⟨?_, ?_⟩, same_params⟩
        · rw [same_text]
          exact described cached rfl
        · intro values same
          rw [same_text]
          exact Or.inr ⟨cached, values, rfl, rfl, same, Carried.refl values text⟩
      · rw [if_neg settled]
        refine ⟨?_, rfl⟩
        cases kept : keptLines buffer buffer.foldEdits cached params with
        | none => exact build_follows buffer _ params (some cached) text
        | some lines => exact keptLines_follows _ (described cached rfl) replayed kept

end Cache

/-- A cache of lines that have their own derivation is the one a pass over the text builds. -/
theorem FoldInputs.Describes.built {E : Type} {buffer : Buffer E}
    (described : inputs.Describes buffer.text) (derived : ∀ expr, inputs.params ≠ .expr expr) :
    inputs.lines = FoldLines.build buffer inputs.params := by
  obtain ⟨tick, params, lines⟩ := inputs
  cases params with
  | expr expr => exact absurd rfl (derived expr)
  | indent tabstop =>
      cases lines with
      | indent cols =>
          rw [FoldLines.build, iterLines_eq]
          exact congrArg FoldLines.indent described
      | marker toks => exact described.elim
      | expr values => exact described.elim
  | marker start stop =>
      cases lines with
      | indent cols => exact described.elim
      | marker toks =>
          rw [FoldLines.build, iterLines_eq]
          exact congrArg FoldLines.marker described
      | expr values => exact described.elim

theorem FoldInputs.Describes.length {text : Text} {values : List (Option Text)}
    (described : inputs.Describes text) (same : inputs.lines = .expr values) :
    values.length = (editable text).length := by
  obtain ⟨tick, params, lines⟩ := inputs
  cases same
  cases params with
  | indent tabstop => cases described
  | marker start stop => cases described
  | expr expr => exact described

/-! ### Runs -/

namespace Synced

variable {E : Type} [ExtmarkStore E]

/-- The edits whose places are right, and that join no break. -/
def Apart (synced : Synced E) : SyncEvent → Prop
  | .buffer event =>
      Journal.Meets synced.watched.buffer event ∧
        ∀ buffer' edit, Journal.step synced.watched.buffer event = some buffer' →
          buffer'.foldEdits = synced.watched.buffer.foldEdits.push edit →
            ¬ edit.JoinsBreak synced.watched.buffer.text
  | _ => True

/-- The journals replay, and the cache describes the text the fold journal starts from. -/
structure Sound (synced : Synced E) : Prop where
  replays : synced.watched.Replays RowExact
  described : ∀ cached, synced.inputs = some cached → cached.Describes (synced.watched.base .fold)

variable {synced : Synced E} {watched watched' : Journal.Watched E}

omit [ExtmarkStore E] in
theorem Sound.replayed (sound : synced.Sound)
    (no_resync : synced.watched.buffer.foldEdits.resync = false) :
    Replay RowExact synced.watched.buffer.foldEdits.edits (synced.watched.base .fold)
      synced.watched.buffer.text := by
  obtain ⟨from_text, replayed, based⟩ := sound.replays .fold
  rw [← based (by decide) no_resync]
  exact replayed

/-- A drain of the fold journal starts it from the current text. -/
theorem take_fold (replays : watched.Replays RowExact)
    (taken : watched.step (.take .fold) = some watched') :
    watched'.Replays RowExact ∧ watched'.base .fold = watched.buffer.text := by
  constructor
  · refine Journal.step_replays ?_ replays taken
    intro edit buffer' stepped pushed
    cases stepped
    exact absurd pushed (Journal.take_ne_push watched.buffer .fold edit)
  · cases taken
    rfl

/-- What is recorded under `Apart` is exact in its rows. -/
theorem buffer_sound {inputs : Option FoldInputs} {event : Journal.Event}
    (sound : (Synced.mk watched inputs).Sound)
    (apart : (Synced.mk watched inputs).Apart (.buffer event)) (other : event ≠ .take .fold)
    (stepped : watched.step event = some watched') : (Synced.mk watched' inputs).Sound := by
  constructor
  · refine Journal.step_replays ?_ sound.replays stepped
    intro edit buffer' taken pushed applies exact_iff
    exact ⟨exact_iff.2 apart.1, apart.2 buffer' edit taken (pushed .fold)⟩
  · have same_base : watched'.base .fold = watched.base .fold := by
      obtain ⟨buffer', -, rfl⟩ := Option.map_eq_some_iff.1 stepped
      cases event with
      | take consumer =>
          have different : Consumer.fold ≠ consumer := by
            rintro rfl
            exact other rfl
          exact if_neg different
      | _ => rfl
    intro cached some_inputs
    rw [same_base]
    exact sound.described cached some_inputs

theorem fillHoles_describes {values : Nat → Option Text} {inputs : FoldInputs} {text : Text}
    (described : inputs.Describes text) :
    FoldInputs.Describes { inputs with lines := fillHoles values inputs.lines } text := by
  obtain ⟨tick, params, lines⟩ := inputs
  cases lines with
  | indent cols => exact described
  | marker toks => exact described
  | expr cached =>
      cases params with
      | indent tabstop => exact described
      | marker start stop => exact described
      | expr expr => exact List.length_mapIdx.trans described

/-- **Step lemma.** -/
theorem step_sound {synced' : Synced E} {event : SyncEvent} (sound : synced.Sound)
    (apart : synced.Apart event) (stepped : synced.step event = some synced') :
    synced'.Sound := by
  cases event with
  | buffer event =>
      by_cases other : event = .take .fold
      · subst other
        cases stepped
      · have stepped : (synced.watched.step event).map
            (fun watched => { synced with watched := watched }) = some synced' := by
          rw [← stepped, step]
          intro drain
          exact other drain
        obtain ⟨watched', taken, rfl⟩ := Option.map_eq_some_iff.1 stepped
        exact buffer_sound sound apart other taken
  | sync params =>
      simp only [step] at stepped
      obtain ⟨watched', taken, rfl⟩ := Option.map_eq_some_iff.1 stepped
      obtain ⟨replays, base⟩ := take_fold sound.replays taken
      refine ⟨replays, ?_⟩
      intro cached same
      cases same
      rw [base]
      exact (syncFoldInputs_follows params sound.described sound.replayed).1.1
  | adjustManual =>
      simp only [step] at stepped
      obtain ⟨watched', taken, rfl⟩ := Option.map_eq_some_iff.1 stepped
      obtain ⟨replays, base⟩ := take_fold sound.replays taken
      refine ⟨replays, ?_⟩
      intro cached same
      dsimp only at same
      split at same
      case isFalse => cases same
      case isTrue settled =>
        rw [base, (sound.replayed settled.2).of_nil settled.1]
        exact sound.described cached same
  | fill values =>
      cases stepped
      refine ⟨sound.replays, ?_⟩
      intro cached same
      obtain ⟨inputs, some_inputs, rfl⟩ := Option.map_eq_some_iff.1 same
      exact fillHoles_describes (sound.described inputs some_inputs)

/-- **The fold inputs follow the text.**  In every run from a drained buffer whose edits keep their
places right and join no break: the fold journal's edits lead from some text to the current one,
from the text of the last drain unless the batch says resync; when they fold into a span, the
rows before it and behind it are the same ones, and replacing its old rows, clamped to the rows
there are, by its new ones gives the rows of the current text.  So what a sync leaves of a cache is
what it would build, and a row of a `'foldexpr'` has no value but one cached for the same line. -/
theorem fold_inputs_sound (buffer : Buffer E) (drained : ∀ c, buffer.journal c = .empty)
    (events : List SyncEvent) (synced : Synced E)
    (apart : Along Apart step ⟨⟨buffer, fun _ => buffer.text⟩, none⟩ events)
    (reached : run step ⟨⟨buffer, fun _ => buffer.text⟩, none⟩ events = some synced) :
    (∃ text, Journal.replay synced.watched.buffer.foldEdits.edits text =
        some synced.watched.buffer.text ∧
      (synced.watched.buffer.foldEdits.resync = false → text = synced.watched.base .fold) ∧
      ∀ start oldEnd newEnd,
        foldEditRows synced.watched.buffer.foldEdits.edits = some (start, oldEnd, newEnd) →
          let old := lines text
          let new := lines synced.watched.buffer.text
          new.take start = old.take start ∧ new.drop (newEnd + 1) = old.drop (oldEnd + 1) ∧
            spliceRows old start (oldEnd + 1) ((new.drop start).take (newEnd + 1 - start)) = new ∧
            spliceRows old.dropLast start (oldEnd + 1)
              ((new.dropLast.drop start).take (newEnd + 1 - start)) = new.dropLast) ∧
    ∀ params,
      let fresh := (syncFoldInputs synced.watched.buffer synced.inputs params).2
      ((∀ expr, params ≠ .expr expr) →
        fresh.lines = FoldLines.build synced.watched.buffer params) ∧
      ∀ values', fresh.lines = .expr values' →
        values'.length = synced.watched.buffer.lineCount ∧
        ((∀ value, some value ∉ values') ∨
          ∃ cached values, synced.inputs = some cached ∧ cached.params = params ∧
            cached.lines = .expr values ∧
            Carried values (synced.watched.base .fold) values' synced.watched.buffer.text) := by
  have sound : synced.Sound := by
    refine run_along Sound (fun _ _ _ sound meets stepped => step_sound sound meets stepped) ?_
      apart reached
    refine ⟨?_, fun cached none_yet => by cases none_yet⟩
    intro c
    refine ⟨buffer.text, ?_, fun _ _ => rfl⟩
    simp only [drained c]
    exact .nil buffer.text
  constructor
  · obtain ⟨text, replayed, based⟩ := sound.replays .fold
    refine ⟨text, replayed.rebuilds fun _ _ _ recorded => recorded.toApplies, based (by decide), ?_⟩
    intro start oldEnd newEnd folded
    have spliced := foldEditRows_spliced replayed folded
    exact ⟨spliced.before, spliced.behind, spliced.whole, spliced.whole_dropLast⟩
  · intro params
    obtain ⟨⟨described, carried⟩, same_params⟩ :=
      syncFoldInputs_follows params sound.described sound.replayed
    constructor
    · intro derived
      rw [← same_params] at derived
      rw [described.built derived, same_params]
    · intro values' same
      refine ⟨(described.length same).trans (length_editable synced.watched.buffer), ?_⟩
      rw [← same_params]
      exact carried values' same

/-- A line grows while its cache waits. -/
theorem fold_inputs_sound_insert :
    ∃ synced : Synced Unit,
      run step ⟨⟨Buffer.ofText ['a', '\n', 'b', '\n'], fun _ => ['a', '\n', 'b', '\n']⟩, none⟩
          [.sync (.indent 8), .buffer (.insert 2 [' '])] = some synced ∧
        foldEditRows synced.watched.buffer.foldEdits.edits = some (1, 1, 1) ∧
        (syncFoldInputs synced.watched.buffer synced.inputs (.indent 8)).2.lines =
          FoldLines.build synced.watched.buffer (.indent 8) := by
  have reached : ∃ synced : Synced Unit,
      run step ⟨⟨Buffer.ofText ['a', '\n', 'b', '\n'], fun _ => ['a', '\n', 'b', '\n']⟩, none⟩
          [.sync (.indent 8), .buffer (.insert 2 [' '])] = some synced ∧
        foldEditRows synced.watched.buffer.foldEdits.edits = some (1, 1, 1) := ⟨_, rfl, by decide⟩
  obtain ⟨synced, reached, folded⟩ := reached
  refine ⟨synced, reached, folded, ?_⟩
  refine ((fold_inputs_sound (Buffer.ofText ['a', '\n', 'b', '\n']) (fun c => by cases c <;> rfl) _
    synced ?_ reached).2 (.indent 8)).1 (by simp)
  refine ⟨trivial, fun next synced_once => ⟨⟨trivial, ?_⟩, fun _ _ => trivial⟩⟩
  intro buffer' edit _ _ joins
  cases synced_once
  exact absurd joins.mem (by decide)

/-! ### What a sync does not do -/

/-- The value of an untouched row of a `'foldexpr'` stays where a pass over the text has none.  A
newline put behind a lone `\r` changes the line above the span.  And a removal that joins a `\r\n`
puts the next edit's rows off by one: the length check passes, and row 2 keeps the indent of a line
that is gone. -/
theorem fold_inputs_stale :
    (∃ synced : Synced Unit,
      run step ⟨⟨Buffer.ofText ['a', '\n', 'b', '\n'], fun _ => ['a', '\n', 'b', '\n']⟩, none⟩
          [.sync (.expr ['e']), .fill (fun _ => some ['1']), .buffer (.insert 0 ['x'])] =
        some synced ∧
      (syncFoldInputs synced.watched.buffer synced.inputs (.expr ['e'])).2.lines =
        .expr [none, some ['1']] ∧
      FoldLines.build synced.watched.buffer (.expr ['e']) = .expr [none, none]) ∧
    (∃ synced : Synced Unit,
      run step ⟨⟨Buffer.ofText ['a', '\r', 'X', '\n'], fun _ => ['a', '\r', 'X', '\n']⟩, none⟩
          [.sync (.indent 8), .buffer (.insert 2 ['\n'])] = some synced ∧
      foldEditRows synced.watched.buffer.foldEdits.edits = some (1, 1, 1) ∧
      (lines (synced.watched.base .fold)).take 1 = [['a', '\r']] ∧
      (lines synced.watched.buffer.text).take 1 = [['a', '\r', '\n']]) ∧
    ∃ synced : Synced Unit,
      run step ⟨⟨Buffer.ofText "a\rX\nb\r\n  c\nd\n".toList,
          fun _ => "a\rX\nb\r\n  c\nd\n".toList⟩, none⟩
          [.sync (.indent 8), .buffer (.remove 2 3), .buffer (.remove 5 8)] = some synced ∧
      (syncFoldInputs synced.watched.buffer synced.inputs (.indent 8)).2.lines =
        .indent [some 0, some 0, some 2, some 0] ∧
      FoldLines.build synced.watched.buffer (.indent 8) =
        .indent [some 0, some 0, some 0, some 0] := by
  refine ⟨⟨_, rfl, ?_, ?_⟩, ⟨_, rfl, ?_, ?_, ?_⟩, ⟨_, rfl, ?_, ?_⟩⟩
  all_goals decide

end Synced

end Bemtvi.Core
