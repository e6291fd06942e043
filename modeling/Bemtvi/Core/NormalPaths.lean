/-
Module: Bemtvi.Core.NormalPaths
Purpose: Normalizing keeps where a path leads, and tells apart all paths that lead to different
  places; joining composes, and a path is its parent and its last component.
Trusted boundary: human-reviewed spec of where a path leads, component by component
Main exports: place, normalize_exact, join_composes, parent_and_name
-/
import Bemtvi.Core.PathStyle

namespace Bemtvi.Core.PathStyle

open Utf8 LexicalPaths

/-! ### Where a path leads -/

/-- What a component does. -/
def component (part : Text) : Component Text :=
  if part = [] ∨ part = ['.'] then .stay
  else if part = ['.', '.'] then .up
  else .name part

/-- The components of a `/`-separated path, its root left out. -/
def parts (p : Text) : List Text := components .posix (splitRoot .posix p).2

def rooted (p : Text) : Bool := isAbsolute .posix p

/-- Where a path leads from a directory; a rooted path leads there from anywhere. -/
def place (dir : List Text) (p : Text) : List Text :=
  follow (if rooted p then [] else dir) ((parts p).map component)

/-! ### What the loop keeps -/

/-- A component that a normal path may have. -/
structure Spelled (part : Text) : Prop where
  some : part ≠ []
  moves : part ≠ ['.']
  whole : '/' ∉ part

/-- A name. -/
structure Written (part : Text) : Prop extends Spelled part where
  down : part ≠ ['.', '.']

/-- A reduced path, spelled by its components. -/
def spelling (rooted : Bool) (path : Reduced Text) : List Text :=
  (if rooted then [] else List.replicate path.ups ['.', '.']) ++ path.names

variable {path : Reduced Text} {comps parts' : List Text} {p name : Text}

theorem pushPart_spelling (names : ∀ part ∈ path.names, Written part) (rooted : Bool)
    (part : Text) :
    pushPart rooted (spelling rooted path) part = spelling rooted (path.push (component part)) := by
  rw [pushPart, component]
  split
  · rfl
  · split
    · rw [Reduced.push]
      by_cases none : path.names = []
      · rw [if_pos none]
        cases rooted with
        | true => simp [spelling, none]
        | false =>
            cases ups : path.ups with
            | zero => simp [spelling, none, ups]
            | succ n => simp [spelling, none, ups, List.replicate_succ', List.append_assoc]
      · obtain ⟨last, ends⟩ : ∃ last, path.names.getLast? = some last :=
          ⟨_, List.getLast?_eq_some_getLast none⟩
        have found : (spelling rooted path).getLast? = some last := by
          rw [spelling, List.getLast?_append, ends]
          rfl
        have down := (names last (List.mem_of_getLast? ends)).down
        rw [if_neg none, found]
        simp only [down, ne_eq, not_false_eq_true, if_true, spelling]
        rw [List.dropLast_append_of_ne_nil none]
    · rw [Reduced.push, spelling, spelling, List.append_assoc]

theorem reduce_names (whole : ∀ part ∈ comps, '/' ∉ part) :
    ∀ part ∈ (reduce (comps.map component)).names, Written part := by
  induction comps using List.reverseRecOn with
  | nil =>
      intro part among
      cases among
  | append_singleton comps c ih =>
      have before := ih fun part among => whole part (List.mem_append_left _ among)
      rw [List.map_append, List.map_singleton, reduce_concat, component]
      split
      · exact before
      · next some =>
          split
          · rw [Reduced.push]
            split
            · intro part among
              cases among
            · exact fun part among => before part (List.mem_of_mem_dropLast among)
          · next down =>
              intro part among
              rcases List.mem_append.1 among with old | new
              · exact before part old
              · rw [List.mem_singleton.1 new]
                rw [not_or] at some
                exact ⟨⟨some.1, some.2, whole c (by simp)⟩, down⟩

theorem foldl_pushPart (rooted : Bool) (whole : ∀ part ∈ comps, '/' ∉ part) :
    comps.foldl (pushPart rooted) [] = spelling rooted (reduce (comps.map component)) := by
  induction comps using List.reverseRecOn with
  | nil => cases rooted <;> rfl
  | append_singleton comps c ih =>
      have before : ∀ part ∈ comps, '/' ∉ part :=
        fun part among => whole part (List.mem_append_left _ among)
      rw [List.foldl_append, ih before, List.foldl_cons, List.foldl_nil,
        pushPart_spelling (reduce_names before), List.map_append, List.map_singleton, reduce_concat]

theorem mem_parts {part : Text} (among : part ∈ parts p) : '/' ∉ part := by
  rw [parts, components] at among
  generalize (splitRoot .posix p).2 = rest at among
  induction rest generalizing part with
  | nil =>
      rw [List.mem_singleton.1 among]
      exact List.not_mem_nil
  | cons c rest ih =>
      rw [List.splitOnP_cons_eq_if_modifyHead] at among
      split at among
      · rcases List.mem_cons.1 among with rfl | among
        · exact List.not_mem_nil
        · exact ih among
      · next other =>
          obtain ⟨first, more, split⟩ :=
            List.exists_cons_of_ne_nil (List.splitOnP_ne_nil (isSep .posix) rest)
          rw [split, List.modifyHead_cons] at among
          rcases List.mem_cons.1 among with rfl | among
          · rw [List.mem_cons, not_or]
            refine ⟨?_, ih (split ▸ List.mem_cons_self)⟩
            rintro rfl
            exact other rfl
          · exact ih (split ▸ List.mem_cons_of_mem _ among)

/-! ### What is shown -/

/-- A normal path, from its components. -/
def shown (rooted : Bool) (parts : List Text) : Text :=
  let out := (if rooted then ['/'] else []) ++ ['/'].intercalate parts
  if out = [] then ['.'] else out

/-- What normalizing leaves of a path. -/
def left (p : Text) : Reduced Text := reduce ((parts p).map component)

theorem normalize_eq (p : Text) :
    normalize .posix p = shown (rooted p) (spelling (rooted p) (left p)) := by
  have root : (splitRoot .posix p).1 = if rooted p then ['/'] else [] := by
    rw [rooted, isAbsolute, splitRoot.eq_def]
    split
    · rfl
    · rfl
    all_goals contradiction
  have rooted_eq : rooted p = !(splitRoot .posix p).1.isEmpty := rfl
  rw [left, ← foldl_pushPart (rooted p) fun _ => mem_parts, shown, ← root, rooted_eq]
  rfl

theorem intercalate_ne_nil {parts : List Text} (spelled : ∀ part ∈ parts, Spelled part)
    (some : parts ≠ []) : ['/'].intercalate parts ≠ [] := by
  intro none
  have split := List.splitOn_intercalate '/' (fun part among => (spelled part among).whole) some
  rw [none, List.splitOn_nil] at split
  exact (spelled [] (split ▸ List.mem_cons_self)).some rfl

theorem intercalate_inj {parts : List Text} (spelled : ∀ part ∈ parts, Spelled part)
    (spelled' : ∀ part ∈ parts', Spelled part)
    (same : ['/'].intercalate parts = ['/'].intercalate parts') : parts = parts' := by
  by_cases none : parts = []
  · by_cases none' : parts' = []
    · rw [none, none']
    · rw [none] at same
      exact absurd same.symm (intercalate_ne_nil spelled' none')
  · by_cases none' : parts' = []
    · rw [none'] at same
      exact absurd same (intercalate_ne_nil spelled none)
    · rw [← List.splitOn_intercalate '/' (fun part among => (spelled part among).whole) none, same,
        List.splitOn_intercalate '/' (fun part among => (spelled' part among).whole) none']

theorem shown_relative {parts : List Text} (spelled : ∀ part ∈ parts, Spelled part) :
    shown false parts = if parts = [] then ['.'] else ['/'].intercalate parts := by
  rw [shown]
  by_cases none : parts = []
  · rw [none]
    rfl
  · rw [if_neg none]
    exact if_neg (intercalate_ne_nil spelled none)

theorem shown_relative_head {parts : List Text} (spelled : ∀ part ∈ parts, Spelled part) :
    (shown false parts).head? ≠ some '/' := by
  rw [shown_relative spelled]
  cases parts with
  | nil => decide
  | cons part more =>
      have first := spelled part List.mem_cons_self
      obtain ⟨c, name, rfl⟩ := List.exists_cons_of_ne_nil first.some
      rw [if_neg (List.cons_ne_nil _ _)]
      have head : (['/'].intercalate ((c :: name) :: more)).head? = some c := by
        cases more <;> rfl
      rw [head]
      intro slash
      exact first.whole (Option.some.inj slash ▸ List.mem_cons_self)

/-- A normal path tells whether it is rooted, and its components. -/
theorem shown_inj {rooted rooted' : Bool} {parts : List Text}
    (spelled : ∀ part ∈ parts, Spelled part) (spelled' : ∀ part ∈ parts', Spelled part)
    (same : shown rooted parts = shown rooted' parts') : rooted = rooted' ∧ parts = parts' := by
  cases rooted with
  | true =>
      cases rooted' with
      | true => exact ⟨rfl, intercalate_inj spelled spelled' (List.cons.inj same).2⟩
      | false => exact absurd (congrArg List.head? same).symm (shown_relative_head spelled')
  | false =>
      cases rooted' with
      | true => exact absurd (congrArg List.head? same) (shown_relative_head spelled)
      | false =>
          -- No path but the empty one is shown as a dot.
          have dot : ∀ {parts : List Text}, (∀ part ∈ parts, Spelled part) → parts ≠ [] →
              ['.'] ≠ ['/'].intercalate parts := by
            intro parts spelled some dot
            have split := List.splitOn_intercalate '/'
              (fun part among => (spelled part among).whole) some
            rw [← dot] at split
            exact (spelled ['.'] (split ▸ List.mem_cons_self)).moves rfl
          rw [shown_relative spelled, shown_relative spelled'] at same
          refine ⟨rfl, ?_⟩
          split at same
          · next none =>
              split at same
              · next none' => rw [none, none']
              · next some' => exact absurd same (dot spelled' some')
          · next some =>
              split at same
              · exact absurd same.symm (dot spelled some)
              · exact intercalate_inj spelled spelled' same

/-! ### The whole of it -/

theorem left_names (p : Text) : ∀ part ∈ (left p).names, Written part :=
  reduce_names fun _ => mem_parts

theorem spelling_spelled (p : Text) : ∀ part ∈ spelling (rooted p) (left p), Spelled part := by
  intro part among
  rcases List.mem_append.1 among with up | name
  · split at up
    · cases up
    · rw [List.eq_of_mem_replicate up]
      exact ⟨by decide, by decide, by decide⟩
  · exact (left_names p part name).toSpelled

/-- A relative path's spelling tells its steps up from its names. -/
theorem spelling_relative_inj {path' : Reduced Text} (names : ∀ part ∈ path.names, Written part)
    (names' : ∀ part ∈ path'.names, Written part)
    (same : spelling false path = spelling false path') : path = path' := by
  have none : ∀ {path : Reduced Text}, (∀ part ∈ path.names, Written part) →
      (spelling false path).count ['.', '.'] = path.ups := by
    intro path names
    have absent : ['.', '.'] ∉ path.names := fun among => (names _ among).down rfl
    simp only [spelling, Bool.false_eq_true, if_false, List.count_append, List.count_replicate_self,
      List.count_eq_zero_of_not_mem absent, Nat.add_zero]
  have ups : path.ups = path'.ups := by rw [← none names, same, none names']
  simp only [spelling, Bool.false_eq_true, if_false, ups] at same
  have names := List.append_cancel_left same
  cases path
  cases path'
  cases ups
  cases names
  rfl

theorem splitRoot_relative (relative : p.head? ≠ some '/') : splitRoot .posix p = ([], p) := by
  cases p with
  | nil => rfl
  | cons c p =>
      rw [splitRoot.eq_def]
      split
      · next same =>
          cases same
          exact absurd rfl relative
      · rfl
      all_goals contradiction

/-- The components of a normal path are those it was spelled by. -/
theorem follow_parts_shown {rooted : Bool} (dir : List Text)
    (spelled : ∀ part ∈ comps, Spelled part) :
    follow dir ((parts (shown rooted comps)).map component) = follow dir (comps.map component) := by
  have split : ∀ {comps : List Text}, comps ≠ [] → (∀ part ∈ comps, Spelled part) →
      components .posix (['/'].intercalate comps) = comps := fun some spelled =>
    List.splitOn_intercalate '/' (fun part among => (spelled part among).whole) some
  cases rooted with
  | true =>
      have whole : parts (shown true comps) = components .posix (['/'].intercalate comps) := rfl
      rw [whole]
      by_cases none : comps = []
      · rw [none]
        rfl
      · rw [split none spelled]
  | false =>
      rw [parts, splitRoot_relative (shown_relative_head spelled), shown_relative spelled]
      by_cases none : comps = []
      · rw [if_pos none, none]
        rfl
      · rw [if_neg none, split none spelled]

theorem rooted_shown {rooted' : Bool} (spelled : ∀ part ∈ comps, Spelled part) :
    rooted (shown rooted' comps) = rooted' := by
  cases rooted' with
  | true => rfl
  | false =>
      rw [rooted, isAbsolute, splitRoot_relative (shown_relative_head spelled)]
      rfl

theorem component_written {part : Text} (written : Written part) : component part = .name part := by
  rw [component, if_neg (not_or.2 ⟨written.some, written.moves⟩), if_neg written.down]

theorem spelling_path (names : ∀ part ∈ path.names, Written part) :
    (spelling false path).map component = path.path := by
  rw [spelling, Reduced.path, List.map_append,
    List.map_congr_left fun part among => component_written (names part among)]
  simp only [Bool.false_eq_true, if_false, List.map_replicate]
  rfl

theorem follow_spelling (names : ∀ part ∈ path.names, Written part) (dir : List Text) :
    follow dir ((spelling false path).map component) = path.follow dir := by
  rw [spelling_path names, Reduced.follow_path]

theorem normalize_leads (dir : List Text) (p : Text) :
    rooted (normalize .posix p) = rooted p ∧ place dir (normalize .posix p) = place dir p := by
  have spelled := spelling_spelled p
  rw [normalize_eq]
  refine ⟨rooted_shown spelled, ?_⟩
  rw [place, place, rooted_shown spelled, follow_parts_shown _ spelled]
  cases relative : rooted p with
  | true =>
      have names : (spelling true (left p)).map component = (left p).names.map .name :=
        List.map_congr_left fun part among => component_written (left_names p part among)
      rw [names, if_pos rfl, follow_names, follow_top]
      rfl
  | false => rw [follow_spelling (left_names p), left, follow_reduce]

/-- **Normalizing is exact**: a path and its normal form lead to one place from every directory, and
two paths have one normal form just when both or neither are rooted and they lead to one place from
every directory. -/
theorem normalize_exact (p q : Text) :
    isAbsolute .posix (normalize .posix p) = isAbsolute .posix p ∧
      (∀ dir, place dir (normalize .posix p) = place dir p) ∧
      (normalize .posix p = normalize .posix q ↔
        isAbsolute .posix p = isAbsolute .posix q ∧ ∀ dir, place dir p = place dir q) := by
  refine ⟨(normalize_leads [] p).1, fun dir => (normalize_leads dir p).2, ?_⟩
  rw [normalize_eq, normalize_eq]
  constructor
  · intro same
    obtain ⟨roots, spellings⟩ := shown_inj (spelling_spelled p) (spelling_spelled q) same
    refine ⟨roots, fun dir => ?_⟩
    rw [place, place, roots]
    rw [roots] at spellings
    cases relative : rooted q with
    | true =>
        rw [relative] at spellings
        rw [if_pos rfl, follow_top, follow_top]
        exact spellings
    | false =>
        rw [relative] at spellings
        exact reduce_eq_iff.1 (spelling_relative_inj (left_names p) (left_names q) spellings) _
  · rintro ⟨roots, places⟩
    change rooted p = rooted q at roots
    simp only [place, roots] at places
    rw [roots]
    cases relative : rooted q with
    | true =>
        simp only [relative, if_true, follow_top] at places
        have names : (left p).names = (left q).names := places []
        rw [spelling, spelling, names]
        rfl
    | false =>
        simp only [relative, Bool.false_eq_true, if_false] at places
        rw [left, left, reduce_eq_iff.2 places]

/-! ### Joining -/

/-- Where the components of a text lead. -/
def leads (dir : List Text) (rest : Text) : List Text :=
  follow dir ((components .posix rest).map component)

theorem leads_slash (dir : List Text) (front back : Text) :
    leads dir (front ++ '/' :: back) = leads (leads dir front) back := by
  rw [leads, components, List.splitOnP_append_cons front back rfl, List.map_append, follow_append]
  rfl

theorem leads_closed (dir : List Text) {front : Text} (closed : front.getLast? = some '/')
    (back : Text) : leads dir (front ++ back) = leads (leads dir front) back := by
  obtain ⟨name, rfl⟩ := List.getLast?_eq_some_iff.1 closed
  rw [List.append_assoc, List.singleton_append, leads_slash, leads_slash]
  rfl

theorem place_relative (dir : List Text) (relative : p.head? ≠ some '/') :
    place dir p = leads dir p := by
  rw [place, parts, rooted, isAbsolute, splitRoot_relative relative]
  rfl

theorem head_of_relative (relative : rooted p = false) : p.head? ≠ some '/' := by
  cases p with
  | nil => simp
  | cons c p =>
      intro slash
      cases Option.some.inj slash
      cases relative

/-- Behind a path that is not closed stands a separator. -/
def glue (base : Text) : Text := if base.getLast?.any (isSep .posix) then [] else ['/']

theorem leads_glue (dir : List Text) (base p : Text) :
    leads dir (base ++ glue base ++ p) = leads (leads dir base) p := by
  rw [glue]
  split
  · next closed =>
      obtain ⟨c, ends, sep⟩ := (Option.any_eq_true _ _).1 closed
      rw [beq_iff_eq.1 (show (c == '/') = true from sep)] at ends
      rw [List.append_nil, leads_closed dir ends]
  · rw [List.append_assoc, List.singleton_append, leads_slash]

theorem join_posix {base : Text} (relative : rooted p = false) (base_some : base ≠ [])
    (p_some : p ≠ []) : join .posix base p = base ++ glue base ++ p := by
  rw [join, if_neg (by rw [show isAbsolute .posix p = false from relative]; decide),
    splitRoot_relative (head_of_relative relative)]
  simp only [ne_eq, not_true_eq_false, if_false, base_some, p_some, reduceCtorEq, false_and]
  rfl

theorem join_facts (base p : Text) :
    rooted (join .posix base p) = (rooted base || rooted p) ∧
      ∀ dir, place dir (join .posix base p) = place (place dir base) p := by
  cases absolute : rooted p with
  | true =>
      have whole : join .posix base p = p := if_pos absolute
      rw [whole, absolute, Bool.or_true]
      refine ⟨rfl, fun dir => ?_⟩
      rw [place, place, absolute]
      rfl
  | false =>
      have p_head := head_of_relative absolute
      have not_absolute : ¬ isAbsolute .posix p = true := by
        rw [show isAbsolute .posix p = false from absolute]
        decide
      rw [Bool.or_false]
      by_cases base_none : base = []
      · have whole : join .posix base p = p := by
          rw [join, if_neg not_absolute, splitRoot_relative p_head, base_none]
          rfl
        rw [whole, base_none, absolute]
        exact ⟨rfl, fun dir => rfl⟩
      by_cases p_none : p = []
      · have whole : join .posix base p = base := by
          rw [join, if_neg not_absolute, splitRoot_relative p_head, p_none]
          simp [base_none]
        rw [whole, p_none]
        exact ⟨rfl, fun dir => rfl⟩
      rw [join_posix absolute base_none p_none]
      cases base with
      | nil => exact absurd rfl base_none
      | cons c rest =>
          by_cases slash : c = '/'
          · refine ⟨by rw [slash]; rfl, fun dir => ?_⟩
            rw [place_relative (place dir (c :: rest)) p_head, slash]
            change leads [] (rest ++ glue ('/' :: rest) ++ p) = leads (leads [] rest) p
            by_cases rest_none : rest = []
            · rw [rest_none]
              rfl
            · have same : glue ('/' :: rest) = glue rest := by
                rw [glue, glue, List.getLast?_cons_of_ne_nil rest_none]
              rw [same, leads_glue]
          · have head : ∀ back, (c :: rest ++ back).head? ≠ some '/' := by
              intro back same
              exact slash (Option.some.inj same)
            have base_head : (c :: rest).head? ≠ some '/' := by simpa using head []
            refine ⟨?_, fun dir => ?_⟩
            · rw [rooted, rooted, isAbsolute, isAbsolute, List.append_assoc,
                splitRoot_relative (head _), splitRoot_relative base_head]
            · rw [List.append_assoc, place_relative dir (head _), ← List.append_assoc,
                leads_glue, place_relative dir base_head, place_relative _ p_head]

/-- **Joining composes**: the joined path leads where the second path leads from where the first one
does, and it is rooted just when one of them is. -/
theorem join_composes (base p : Text) :
    isAbsolute .posix (join .posix base p) = (isAbsolute .posix base || isAbsolute .posix p) ∧
      ∀ dir, place dir (join .posix base p) = place (place dir base) p :=
  join_facts base p

/-! ### The last component -/

theorem leads_trim (dir : List Text) (rest : Text) :
    leads dir (rest.rdropWhile (isSep .posix)) = leads dir rest := by
  induction rest using List.reverseRecOn with
  | nil => rfl
  | append_singleton rest c ih =>
      rw [List.rdropWhile_concat]
      split
      · next sep =>
          rw [ih, beq_iff_eq.1 (show (c == '/') = true from sep), leads_slash]
          rfl
      · rfl

theorem splitLast_cases (rest : Text) :
    (∀ c ∈ (splitLast .posix rest).2, isSep .posix c = false) ∧
      match (splitLast .posix rest).1 with
      | none => rest = (splitLast .posix rest).2
      | some head => rest = head ++ '/' :: (splitLast .posix rest).2 := by
  have whole := List.takeWhile_append_dropWhile (p := fun c => !isSep .posix c) (l := rest.reverse)
  rw [splitLast]
  cases behind : rest.reverse.dropWhile fun c => !isSep .posix c with
  | nil =>
      rw [behind, List.append_nil, List.takeWhile_eq_self_iff] at whole
      exact ⟨fun c among => by simpa using whole c (List.mem_reverse.2 among), rfl⟩
  | cons c head =>
      have sep : isSep .posix c = true := by
        have first := List.head_dropWhile_not (p := fun c => !isSep .posix c) (l := rest.reverse)
          (by rw [behind]; exact List.cons_ne_nil _ _)
        simpa [behind] using first
      refine ⟨fun c among => ?_, ?_⟩
      · simpa using List.mem_takeWhile_imp (List.mem_reverse.1 among)
      · rw [behind, beq_iff_eq.1 (show (c == '/') = true from sep)] at whole
        have back := congrArg List.reverse whole
        rw [List.reverse_append, List.reverse_cons, List.append_assoc, List.reverse_reverse] at back
        exact back.symm

theorem leads_name (dir : List Text) (written : Written name) :
    leads dir name = dir ++ [name] := by
  have single : components .posix name = [name] := by
    refine List.splitOnP_eq_singleton fun c among => ?_
    rw [isSep, beq_eq_false_iff_ne]
    rintro rfl
    exact written.whole among
  rw [leads, single, List.map_singleton, component_written written]
  rfl

/-- What stands in front of the last component, closing separators left out. -/
def ahead (rest : Text) : Text :=
  ((splitLast .posix (rest.rdropWhile (isSep .posix))).1.getD []).rdropWhile (isSep .posix)

/-- The last component of a text without its root, and what stands in front of it. -/
theorem leads_last (dir : List Text) {rest : Text}
    (last : (splitLast .posix (rest.rdropWhile (isSep .posix))).2 = name) (written : Written name) :
    leads dir rest = leads dir (ahead rest) ++ [name] := by
  obtain ⟨-, cases_of⟩ := splitLast_cases (rest.rdropWhile (isSep .posix))
  rw [← leads_trim dir rest]
  cases front : (splitLast .posix (rest.rdropWhile (isSep .posix))).1 with
  | none =>
      simp only [front, last] at cases_of
      rw [ahead, front, cases_of, leads_name dir written]
      rfl
  | some head =>
      simp only [front, last] at cases_of
      rw [ahead, front, cases_of, leads_slash, leads_name _ written, Option.getD_some, leads_trim]

theorem fileName_written (named : fileName .posix p = some name) :
    (splitLast .posix ((splitRoot .posix p).2.rdropWhile (isSep .posix))).2 = name ∧
      Written name := by
  rw [fileName] at named
  split at named
  · next plain =>
      cases named
      refine ⟨rfl, ⟨plain.1, plain.2.1, fun slash => ?_⟩, plain.2.2⟩
      exact absurd ((splitLast_cases _).1 '/' slash) (by decide)
  · cases named

theorem parent_eq (named : fileName .posix p = some name) :
    (parent .posix p).getD [] = (splitRoot .posix p).1 ++ ahead (splitRoot .posix p).2 := by
  obtain ⟨last, written⟩ := fileName_written named
  have nonempty : (splitRoot .posix p).2.rdropWhile (isSep .posix) ≠ [] := by
    intro none
    rw [none] at last
    exact written.some last.symm
  simp only [parent, nonempty, if_false, ahead]
  cases (splitLast .posix ((splitRoot .posix p).2.rdropWhile (isSep .posix))).1 with
  | none => by_cases rootless : (splitRoot .posix p).1 = [] <;> simp [rootless]
  | some head => rfl

theorem ahead_prefix (rest : Text) : ahead rest <+: rest := by
  have trimmed := List.rdropWhile_prefix (isSep .posix) rest
  obtain ⟨-, cases_of⟩ := splitLast_cases (rest.rdropWhile (isSep .posix))
  rw [ahead]
  cases front : (splitLast .posix (rest.rdropWhile (isSep .posix))).1 with
  | none => exact List.nil_prefix
  | some head =>
      simp only [front] at cases_of
      refine ((List.rdropWhile_prefix _ _).trans ?_).trans trimmed
      rw [cases_of]
      exact List.prefix_append _ _

theorem parent_place (named : fileName .posix p = some name) (dir : List Text) :
    place dir p = place dir ((parent .posix p).getD []) ++ [name] := by
  obtain ⟨last, written⟩ := fileName_written named
  rw [parent_eq named]
  cases absolute : rooted p with
  | true =>
      cases p with
      | nil => cases absolute
      | cons c rest =>
          by_cases slash : c = '/'
          · subst slash
            exact leads_last [] last written
          · have relative : (c :: rest).head? ≠ some '/' := fun same => slash (Option.some.inj same)
            rw [rooted, isAbsolute, splitRoot_relative relative] at absolute
            cases absolute
  | false =>
      have relative := head_of_relative absolute
      rw [splitRoot_relative relative] at last ⊢
      have first : (ahead p).head? ≠ some '/' := by
        obtain ⟨back, whole⟩ := ahead_prefix p
        intro slash
        rw [← whole, List.head?_append, slash] at relative
        exact relative rfl
      rw [List.nil_append, place_relative dir relative, place_relative dir first]
      exact leads_last dir last written

/-- **A path is its parent and its last component**: joined again they lead where the path leads. -/
theorem parent_and_name (p name : Text) (named : fileName .posix p = some name) (dir : List Text) :
    place dir p = place dir ((parent .posix p).getD []) ++ [name] ∧
      place dir (join .posix ((parent .posix p).getD []) name) = place dir p := by
  obtain ⟨-, written⟩ := fileName_written named
  refine ⟨parent_place named dir, ?_⟩
  have relative : name.head? ≠ some '/' := by
    intro slash
    exact written.whole (List.mem_of_mem_head? slash)
  rw [(join_facts _ name).2, place_relative _ relative, leads_name _ written,
    parent_place named dir]

/-- `/a//b/`: from anywhere, `b` in what `/a` leads to. -/
theorem parent_and_name_closed :
    place [['c']] ['/', 'a', '/', '/', 'b', '/'] = [['a'], ['b']] :=
  (parent_and_name ['/', 'a', '/', '/', 'b', '/'] ['b'] (by decide) [['c']]).1

end Bemtvi.Core.PathStyle
